-- SUMMARY: The parallel input of the backup sort: its dispatcher, its workers and its reader, around a ring of frames.
import EternityII.Stock.LocalStock

/-!
# Reading a backup in parallel

The body of a compressed backup is a sequence of frames. A dispatcher cuts it up and hands each
frame to the ring, workers decompress the frames, and a reader takes their contents back in order.
A frame that announces no size, a big size, or is not all in the window is decompressed by the
dispatcher itself, in chunks. A party works on a slot without the lock, between the two moments
where it holds it; what it writes there in the meantime is any value. A wait on a condition variable
ends when what it waits for is true.
-/

/-! ## The state -/

/-- What `ZSTD_getFrameContentSize` says of a frame. -/
inductive ContentSize where
  | known (cs : Nat)
  | unknown
  | error
  deriving DecidableEq

/-- Why a frame cannot be decompressed: the file ends in it, or it is damaged. -/
inductive PinFailure where
  | truncated | corrupt
  deriving DecidableEq

/-- A frame: what its header announces, whether `ZSTD_findFrameCompressedSize` finds its end in the
window, and the bytes that its decompression gives, all of them or, when it fails, those before. -/
structure PinFrame where
  contentSize : ContentSize
  whole : Bool
  content : List Byte
  failure : Option PinFailure

/-- The states of a slot: 0, 1, 2, 3, 4 and -1. -/
inductive PinSlotState where
  | free | toDecompress | inProgress | ready | fin | error
  deriving DecidableEq

/-- `pin_slot_t`: the frame in `src`, the bytes in `out`, `out_len` and `state`. -/
structure PinSlot where
  src : Option PinFrame
  out : List Byte
  outLen : Nat
  state : PinSlotState

/-- `ZSTD_decompressDCtx` on the slot: the frame gives `out_len` bytes, or `out` is left in it. -/
def PinSlot.decompress (s : PinSlot) (context : Bool) (out : List Byte) : PinSlot :=
  match s.src.filter fun f => context && f.failure.isNone && decide (f.content.length = s.outLen) with
  | some f => { s with out := f.content, state := .ready }
  | none => { s with out, state := .error }

/-- `PIN_FRAME_MAX`. -/
def pinFrameMax : Nat := 16 * 2 ^ 20

/-- `PIN_CHUNK`. -/
def pinChunk : Nat := 4 * 2 ^ 20

/-- What the dispatcher wants a slot for: a frame for the workers, the next chunk of a frame with the
bytes still to come, or the last slot with `err`. -/
inductive PinJob where
  | frame (f : PinFrame) (rest : List PinFrame)
  | chunk (f : PinFrame) (rest : List PinFrame) (left : List Byte)
  | last (err : Bool)

/-- `pin_dispatch_main`: at the head of its loop, in `pin_reserve`, with the slot reserved and what the
inner loop has put out, in that loop after an error of the stream, or at its end. -/
inductive PinDispatcher where
  | top (frames : List PinFrame)
  | reserve (job : PinJob)
  | fill (job : PinJob) (o : List Byte)
  | spoiled (f : PinFrame)
  | finished

/-- `pin_read`: between two calls, at the head of its loop, with a slot that is ready, or with a slot
read in full. -/
inductive PinReader where
  | idle
  | reading (cap : Nat) (dst : List Byte)
  | copying (cap : Nat) (dst : List Byte)
  | releasing (cap : Nat) (dst : List Byte)

/-- `pin_t` with its parties. A worker that decompresses has the number of its frame; `results` are the
calls of `pin_read` with their capacity and the bytes they return, `none` for an error; `decompressed`
are the numbers of the frames that have been through `ZSTD_decompressDCtx`. -/
structure Pin where
  ring : Nat → PinSlot
  produced : Nat
  consumed : Nat
  pending : Nat
  stop : Bool
  pos : Nat
  dispatcher : PinDispatcher
  workers : Nat → Option Nat
  reader : PinReader
  results : List (Nat × Option (List Byte))
  decompressed : List Nat

/-- What the threads can do. The environment says whether an allocation or a read of the file fails,
how far each call of `ZSTD_decompressStream` goes, and whether a worker has a context. -/
inductive PinLabel where
  | split
  | fault
  | reserve
  | scribble (src : Option PinFrame) (out : List Byte) (outLen : Nat)
  | inflate (n : Nat)
  | breaks
  | giveUp
  | publish (ended : Bool)
  | take (i : Nat)
  | scribbleOut (i : Nat) (out : List Byte)
  | finish (i : Nat) (context : Bool) (out : List Byte)
  | call (cap : Nat)
  | look
  | copy
  | release
  | stop

section Steps

variable (ringN nworkers : Nat) (recovers : PinFrame → Bool)

namespace Pin

variable (p : Pin)

/-- The slot of a number. -/
def slot (seq : Nat) : PinSlot := p.ring (seq % ringN)

/-- A slot replaced. -/
def setSlot (seq : Nat) (s : PinSlot) : Pin := { p with ring := Function.update p.ring (seq % ringN) s }

/-- `pin_start`: nothing is produced, and the dispatcher is before the first frame. -/
def start (frames : List PinFrame) : Pin where
  ring := fun _ => ⟨none, [], 0, .free⟩
  produced := 0
  consumed := 0
  pending := 0
  stop := false
  pos := 0
  dispatcher := .top frames
  workers := fun _ => none
  reader := .idle
  results := []
  decompressed := []

/-! ## The dispatcher -/

/-- The head of the loop: the end of the file, a frame for the workers, a frame to decompress here, or
a header that cannot be read. -/
def splitFrame : List PinFrame → PinJob
  | [] => .last false
  | f :: rest =>
    match f.contentSize with
    | .known cs => if cs ≤ pinFrameMax ∧ f.whole = true then .frame f rest else .chunk f rest f.content
    | .unknown => .chunk f rest f.content
    | .error => .last true

/-- `pin_publish`. -/
def pinPublish (s : PinSlot) (state : PinSlotState) : Pin :=
  { p.setSlot ringN p.produced { s with state } with produced := p.produced + 1 }

/-- Where the dispatcher goes on after a chunk: to the next frame when `ret == 0`. -/
def afterChunk (f : PinFrame) (rest : List PinFrame) (left : List Byte) (ended : Bool) : PinDispatcher :=
  if ended then .top rest else .reserve (.chunk f rest left)

/-- The publication of the slot that the dispatcher has filled, and where it goes on. A chunk is
published when it is full or its frame ends (`ret == 0`), if it has any byte. -/
def publishJob (ended : Bool) (o : List Byte) : PinJob → Option Pin
  | .frame f rest =>
    match f.contentSize with
    | .known cs =>
      some { p.pinPublish ringN ⟨some f, (p.slot ringN p.produced).out, cs, .free⟩ .toDecompress with
        dispatcher := .top rest }
    | _ => none
  | .chunk f rest left =>
    if ended = true ∧ (left = [] ∧ f.failure = none) ∨ ended = false ∧ o.length = pinChunk then
      if o = [] then some { p with dispatcher := afterChunk f rest left ended }
      else
        some { p.pinPublish ringN ⟨(p.slot ringN p.produced).src, o, o.length, .free⟩ .ready with
          dispatcher := afterChunk f rest left ended }
    else none
  | .last err =>
    some { p.pinPublish ringN ⟨(p.slot ringN p.produced).src, (p.slot ringN p.produced).out, 0, .free⟩
      (if err then .error else .fin) with dispatcher := .finished }

/-- Where the dispatcher goes when `pin_reserve` gives `NULL`. -/
def afterStop : PinJob → PinDispatcher
  | .last _ => .finished
  | _ => .reserve (.last true)

/-- An error outside the inner loop: the dispatcher goes to its last slot, unless it is there. -/
def dispatchFault : PinJob → Option Pin
  | .last _ => none
  | _ => some { p with dispatcher := .reserve (.last true) }

/-- `pin_reserve`: the slot, when the ring has room, or `NULL` after `pin_stop`. -/
def pinReserve (job : PinJob) : Option Pin :=
  if p.stop then some { p with dispatcher := afterStop job }
  else if p.produced - p.consumed ≥ ringN then none
  else some { p with dispatcher := .fill job [] }

/-- A call of `ZSTD_decompressStream` that puts out `n` bytes. -/
def decompressStream (n : Nat) (o : List Byte) : PinJob → Option Pin
  | .chunk f rest left =>
    if o.length < pinChunk ∧ n ≤ left.length ∧ o.length + n ≤ pinChunk then
      some { p with dispatcher := .fill (.chunk f rest (left.drop n)) (o ++ left.take n) }
    else none
  | _ => none

/-- The end of the file in a frame, which leaves the loops, or an error of `ZSTD_decompressStream`. -/
def breakStream (o : List Byte) : PinJob → Option Pin
  | .chunk f _ left =>
    if left = [] ∧ o.length < pinChunk then
      f.failure.map fun failure =>
        { p with
          dispatcher :=
            match failure with
            | .truncated => .reserve (.last true)
            | .corrupt => .spoiled f }
    else none
  | _ => none

/-- What is written without the lock into the slot reserved. -/
def scribble (src : Option PinFrame) (out : List Byte) (outLen : Nat) : Pin :=
  p.setSlot ringN p.produced ⟨src, out, outLen, (p.slot ringN p.produced).state⟩

/-- The dispatcher with a slot reserved. -/
def fillStep (job : PinJob) (o : List Byte) : PinLabel → Option Pin
  | .fault => p.dispatchFault job
  | .scribble src out outLen => some (p.scribble ringN src out outLen)
  | .inflate n => p.decompressStream n o job
  | .breaks => p.breakStream o job
  | .publish ended => p.publishJob ringN ended o job
  | _ => none

/-- The steps of the dispatcher. After an error of `ZSTD_decompressStream` the inner loop ends only when a
later call returns 0 or fills the chunk; `recovers` says of which frames one does. -/
def dispatchStep : PinDispatcher → PinLabel → Option Pin
  | .top frames, label =>
    match label with
    | .split => some { p with dispatcher := .reserve (splitFrame frames) }
    | .fault => some { p with dispatcher := .reserve (.last true) }
    | _ => none
  | .reserve job, label =>
    match label with
    | .fault => p.dispatchFault job
    | .reserve => p.pinReserve ringN job
    | _ => none
  | .fill job o, label => p.fillStep ringN job o label
  | .spoiled f, label =>
    match label with
    | .scribble src out outLen => some (p.scribble ringN src out outLen)
    | .giveUp => if recovers f then some { p with dispatcher := .reserve (.last true) } else none
    | _ => none
  | .finished, _ => none

/-! ## The workers -/

/-- The slots that a worker passes over, `n` at most. -/
def skipPending : Nat → Nat → Nat
  | 0, pending => pending
  | n + 1, pending =>
    if pending < p.produced ∧ (p.slot ringN pending).state ≠ .toDecompress then skipPending n (pending + 1)
    else pending

/-- The next frame to decompress. -/
def nextPending : Nat :=
  p.skipPending ringN (p.produced - max p.pending p.consumed) (max p.pending p.consumed)

/-- A worker takes the next frame, or waits. -/
def takeFrame (i : Nat) : Pin :=
  let pending := p.nextPending ringN
  if pending < p.produced then
    { p.setSlot ringN pending { p.slot ringN pending with state := .inProgress } with
      pending := pending + 1
      workers := Function.update p.workers i (some pending) }
  else { p with pending }

/-- The worker ends the decompression of the frame in its slot. -/
def finishFrame (i seq : Nat) (context : Bool) (out : List Byte) : Pin :=
  { p.setSlot ringN seq ((p.slot ringN seq).decompress context out) with
    workers := Function.update p.workers i none
    decompressed := seq :: p.decompressed }

/-! ## The reader -/

/-- The steps of `pin_read`. -/
def readStep : PinReader → PinLabel → Option Pin
  | .idle, .call cap => if p.stop then none else some { p with reader := .reading cap [] }
  | .reading cap dst, .look =>
    if cap ≤ dst.length then some { p with reader := .idle, results := p.results ++ [(cap, some dst)] }
    else if p.consumed = p.produced then none
    else
      match (p.slot ringN p.consumed).state with
      | .error => some { p with reader := .idle, results := p.results ++ [(cap, none)] }
      | .fin => some { p with reader := .idle, results := p.results ++ [(cap, some dst)] }
      | .ready => some { p with reader := .copying cap dst }
      | _ => none
  | .copying cap dst, .copy =>
    let s := p.slot ringN p.consumed
    let n := min (s.outLen - p.pos) (cap - dst.length)
    let dst := dst ++ (s.out.drop p.pos).take n
    some { p with
      pos := p.pos + n
      reader := if p.pos + n = s.outLen then .releasing cap dst else .reading cap dst }
  | .releasing cap dst, .release =>
    some { p.setSlot ringN p.consumed { p.slot ringN p.consumed with state := .free } with
      consumed := p.consumed + 1
      pos := 0
      reader := .reading cap dst }
  | _, _ => none

/-- A step of the parallel input. `pin_stop` comes from the thread of the reader. -/
def step : PinLabel → Option Pin
  | .take i => if p.stop = false ∧ i < nworkers ∧ p.workers i = none then some (p.takeFrame ringN i) else none
  | .scribbleOut i out =>
    (p.workers i).map fun seq => p.setSlot ringN seq { p.slot ringN seq with out }
  | .finish i context out => (p.workers i).map fun seq => p.finishFrame ringN i seq context out
  | .stop =>
    match p.reader with
    | .idle => some { p with stop := true }
    | _ => none
  | .call cap => p.readStep ringN p.reader (.call cap)
  | .look => p.readStep ringN p.reader .look
  | .copy => p.readStep ringN p.reader .copy
  | .release => p.readStep ringN p.reader .release
  | label => p.dispatchStep ringN recovers p.dispatcher label

end Pin

end Steps
