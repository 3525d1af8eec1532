-- SUMMARY: The input of the backup sort: a body read from its file, or by the parallel input, call by call.
import EternityII.Sort.Batch
import EternityII.Spill.Frame
import EternityII.Stock.ParallelReturns

/-!
# The input of the backup sort

The sort reads the body of a compact file in calls for 1 MiB. A plain body comes from the file itself. A
compressed body is cut into frames, which are decompressed in parallel; its calls are those of the
parallel input, in some interleaving of its threads.
-/

/-! ## Opening the input -/

section Open

/-- libzstd, as the sort uses it: blocks, what a stream for writing makes of a body, what a stream for reading
gives, and how the parallel input finds the frames of a body. -/
structure SortZstd where
  block : Zstd
  write : List Byte → List Byte
  read : ByteStream → ByteStream
  frames : List Byte → List PinFrame

/-- Blocks that are compressed are decompressed, alone or as the frames of a body, and a stream is read back. -/
structure SortZstd.Lawful (z : SortZstd) : Prop where
  block : z.block.Lawful
  frames : ∀ blocks : List (List Byte × List Byte), (∀ b ∈ blocks, z.block.compress b.1 = some b.2) →
    z.read ⟨(blocks.map Prod.snd).flatten, false⟩ = ⟨(blocks.map Prod.fst).flatten, false⟩
  stream : ∀ body, z.read ⟨z.write body, false⟩ = ⟨body, false⟩

/-- What `fread` returns of some bytes, call by call. -/
def freadChunks : Nat → List Byte → List (List Byte)
  | 0, _ => []
  | fuel + 1, bytes =>
    if bytes = [] then [] else bytes.take sortReadChunk :: freadChunks fuel (bytes.drop sortReadChunk)

/-- The calls of `body_read` on a stream. -/
def freadBody (f : ByteStream) : List (Option (List Byte)) :=
  (freadChunks f.bytes.length f.bytes).map some ++ [if f.fails then none else some []]

/-- The readers of `backup_stream_open_read` in a build; none has a stream when no context can be allocated. -/
def streamReaders (zstd : Option SortZstd) (noContext : Bool) : Option (ByteStream → Option ByteStream) :=
  zstd.map fun z body => if noContext then none else some (z.read body)

variable (P : Puzzle) (zstd : Option SortZstd)

/-- `in_open` on a file that can be opened: the reader and the header. The calls of the parallel input
return `pinReads`, unless it cannot be started. -/
def inOpen (noContext noPin : Bool) (pinReads : List (Option (List Byte))) (raw : ByteStream) : Option (InReader × List Byte) :=
  match backupStreamOpenRead P (streamReaders zstd noContext) raw with
  | none => none
  | some (f, .legacy, header) => some (⟨some f, [], [], false⟩, header)
  | some (f, .packed, header) =>
    if zstd.isSome = true ∧ packetCodecFileHeaderIsZstd header = true then
      if noPin then none else some (⟨none, pinReads, [], false⟩, header)
    else some (⟨none, freadBody f, [], false⟩, header)

end Open

/-! ## A plain body -/

section Plain

theorem freadChunks_reads {fuel : Nat} {bytes : List Byte} (hfuel : bytes.length ≤ fuel) (fails : Bool) :
    BodyReads ⟨bytes, fails⟩ ((freadChunks fuel bytes).map some ++ [if fails then none else some []]) := by
  have hend : BodyReads ⟨[], fails⟩ [if fails then none else some []] := by
    cases fails with
    | true => exact .error _ _
    | false => exact .fin []
  induction fuel generalizing bytes with
  | zero =>
    rw [List.length_eq_zero_iff.mp (Nat.le_zero.mp hfuel)]
    exact hend
  | succ fuel ih =>
    unfold freadChunks
    split
    · rename_i hnil
      rw [hnil]
      exact hend
    · rename_i hne
      obtain ⟨b, rest, rfl⟩ := List.exists_cons_of_ne_nil hne
      have hdrop : ((b :: rest).drop sortReadChunk).length ≤ fuel := by
        rw [List.length_drop]
        unfold sortReadChunk
        omega
      have hsplit : (b :: rest).take sortReadChunk = b :: rest.take (sortReadChunk - 1) := rfl
      conv => arg 1; rw [← List.take_append_drop sortReadChunk (b :: rest), hsplit]
      rw [hsplit]
      exact .bytes (ih hdrop)

theorem freadBody_reads (f : ByteStream) : BodyReads f (freadBody f) := freadChunks_reads (Nat.le_refl _) f.fails

theorem none_mem_freadBody {f : ByteStream} (h : none ∈ freadBody f) : f.fails = true := by
  unfold freadBody at h
  cases hfails : f.fails with
  | true => rfl
  | false => simp [hfails] at h

end Plain

/-! ## A compressed body -/

section Frames

variable {ringN nworkers : Nat} {recovers : PinFrame → Bool} {frames : List PinFrame} {p p' : Pin} {label : PinLabel}
variable {reads : List (Option (List Byte))}

/-- A step returns from one call at most. -/
theorem Pin.step_results (h : p.Sound ringN frames) (hstep : p.step ringN nworkers recovers label = some p') :
    p'.results = p.results ∨ ∃ result, p'.results = p.results ++ [result] := by
  have hread : ∀ {label}, p.readStep ringN p.reader label = some p' →
      p'.results = p.results ∨ ∃ result, p'.results = p.results ++ [result] := by
    intro label hstep
    unfold Pin.readStep at hstep
    split at hstep
    · obtain ⟨-, hp'⟩ := Option.ite_none_left_eq_some.mp hstep
      cases Option.some.inj hp'
      exact .inl rfl
    · split at hstep
      · cases Option.some.inj hstep
        exact .inr ⟨_, rfl⟩
      · obtain ⟨-, hstep⟩ := Option.ite_none_left_eq_some.mp hstep
        split at hstep
        · cases Option.some.inj hstep
          exact .inr ⟨_, rfl⟩
        · cases Option.some.inj hstep
          exact .inr ⟨_, rfl⟩
        · cases Option.some.inj hstep
          exact .inl rfl
        · cases hstep
    · cases Option.some.inj hstep
      exact .inl rfl
    · cases Option.some.inj hstep
      exact .inl rfl
    · cases hstep
  have hdispatch : p.dispatchStep ringN recovers p.dispatcher label = some p' → p'.results = p.results := by
    intro hstep
    obtain ⟨items, hring, hpublished, -⟩ := h
    obtain ⟨-, -, -, -, hothers⟩ := (dispatch_cases rfl hstep).keeps hring hpublished
    exact hothers.results
  cases label with
  | take i =>
    obtain ⟨items, hring, -, -⟩ := h
    obtain ⟨-, hp'⟩ := Option.ite_none_right_eq_some.mp hstep
    cases Option.some.inj hp'
    exact .inl (takeFrame_others hring i).results
  | scribbleOut i out | finish i context out =>
    obtain ⟨seq, -, rfl⟩ := Option.map_eq_some_iff.mp hstep
    exact .inl rfl
  | stop =>
    simp only [Pin.step] at hstep
    split at hstep
    · cases Option.some.inj hstep
      exact .inl rfl
    · cases hstep
  | call cap | look | copy | release => exact hread hstep
  | _ => exact .inl (hdispatch hstep)

/-- A run that has returned from some calls has been where it had returned from the first of them. -/
theorem Pin.exists_results_prefix (hrun : Run (Pin.step ringN nworkers recovers) (fun _ _ => True) (Pin.start frames) p)
    {front back : List (Nat × Option (List Byte))} (h : p.results = front ++ back) :
    ∃ q, Run (Pin.step ringN nworkers recovers) (fun _ _ => True) (Pin.start frames) q ∧ q.results = front := by
  induction hrun generalizing back with
  | refl =>
    obtain ⟨rfl, -⟩ := List.append_eq_nil_iff.mp h.symm
    exact ⟨_, .refl, rfl⟩
  | tail hrun hallowed hnext ih =>
    obtain hsame | ⟨result, hmore⟩ := Pin.step_results (pin_sound hrun) hnext
    · exact ih (hsame.symm.trans h)
    · obtain hnil | ⟨back, last, rfl⟩ := List.eq_nil_or_concat back
      · subst hnil
        exact ⟨_, hrun.tail hallowed hnext, h.trans (List.append_nil _)⟩
      · rw [hmore, List.concat_eq_append, ← List.append_assoc] at h
        exact ih (List.append_inj_left' h rfl)

/-- What the calls for 1 MiB of the parallel input return, in some run, up to an error or the end. -/
structure PinReturns (frames : List PinFrame) (reads : List (Option (List Byte))) : Prop where
  run : ∃ ringN nworkers recovers p, Run (Pin.step ringN nworkers recovers) (fun _ _ => True) (Pin.start frames) p ∧
    p.results = reads.map fun result => (sortReadChunk, result)
  ends : none ∈ reads ∨ some [] ∈ reads

/-- The body in some frames. -/
def pinBody (frames : List PinFrame) : ByteStream :=
  { bytes := PinFrame.readable frames
    fails := !frames.all fun f => decide (f.contentSize ≠ .error) && f.failure.isNone }

theorem pinBody_of_intact (h : ∀ f ∈ frames, f.Intact) : pinBody frames = ⟨frames.flatMap PinFrame.content, false⟩ := by
  have hbytes := PinFrame.readable_append h []
  rw [List.append_nil, PinFrame.readable, List.append_nil] at hbytes
  have hfails : (frames.all fun f => decide (f.contentSize ≠ .error) && f.failure.isNone) = true := by
    rw [List.all_eq_true]
    intro f hf
    obtain ⟨hsize, hfailure⟩ := h f hf
    rw [hfailure, decide_eq_true hsize]
    rfl
  unfold pinBody
  rw [hbytes, hfails]
  rfl

/-- The calls of the parallel input return the body. -/
theorem PinReturns.bodyReads (h : PinReturns frames reads) : BodyReads (pinBody frames) reads := by
  obtain ⟨⟨ringN, nworkers, recovers, p, hrun, hresults⟩, hends⟩ := h
  have hreached : ∀ front back, reads = front ++ back →
      ∃ q, PinSafe ringN frames q ∧ q.results = front.map fun result => (sortReadChunk, result) := by
    intro front back hsplit
    rw [hsplit, List.map_append] at hresults
    obtain ⟨q, hq, hfront⟩ := Pin.exists_results_prefix hrun hresults
    exact ⟨q, (pin_sound hq).safe, hfront⟩
  have hreturned : ∀ {q : Pin} {front : List (Option (List Byte))},
      (q.results = front.map fun result => (sortReadChunk, result)) → q.returned = front.flatMap fun result => result.getD [] := by
    intro q front hfront
    unfold Pin.returned
    rw [hfront, List.flatMap_map]
  have hpart : ∀ back front, reads = front ++ back → none ∈ back ∨ some [] ∈ back →
      ∃ rest, PinFrame.readable frames = (front.flatMap fun result => result.getD []) ++ rest ∧
        BodyReads ⟨rest, (pinBody frames).fails⟩ back := by
    intro back
    induction back with
    | nil =>
      intro front _ hends
      simp at hends
    | cons result back ih =>
      intro front hsplit hends
      match result with
      | none =>
        obtain ⟨q, hsafe, hfront⟩ := hreached front (none :: back) hsplit
        obtain ⟨rest, hrest⟩ := hsafe.returned
        exact ⟨rest, by rw [← hrest, hreturned hfront], .error _ _⟩
      | some [] =>
        obtain ⟨q, hsafe, hfront⟩ := hreached (front ++ [some []]) back (by rw [hsplit]; simp)
        obtain ⟨hintact, hall⟩ := hsafe.short sortReadChunk [] (by rw [hfront]; simp) (by decide)
        rw [hreturned hfront, List.flatMap_append] at hall
        have hbody := pinBody_of_intact hintact
        refine ⟨[], ?_, ?_⟩
        · rw [List.append_nil]
          exact (congrArg ByteStream.bytes hbody).trans (by rw [← hall]; simp)
        · rw [hbody]
          exact .fin back
      | some (b :: bytes) =>
        obtain ⟨rest, hrest, hreads⟩ := ih (front ++ [some (b :: bytes)]) (by rw [hsplit]; simp) (by simpa using hends)
        refine ⟨b :: bytes ++ rest, ?_, .bytes hreads⟩
        rw [hrest, List.flatMap_append, List.append_assoc]
        simp
  obtain ⟨rest, hrest, hreads⟩ := hpart reads [] rfl hends
  have hsame : pinBody frames = ⟨rest, (pinBody frames).fails⟩ := by
    unfold pinBody
    rw [hrest]
    rfl
  rw [hsame]
  exact hreads

end Frames
