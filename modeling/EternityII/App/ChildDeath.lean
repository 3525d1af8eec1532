-- SUMMARY: The ring of child deaths: signal handlers record them, one consumer drains them.
import EternityII.Base.Runs
import EternityII.Base.TicketRing
import Mathlib.Algebra.Group.Nat.Defs
import Mathlib.Data.List.Forall2

/-!
# Child deaths

Each handler of SIGCHLD takes an index of the ring with an atomic addition and then writes the slot of
that index, field after field; several handlers can be under way. The orchestrator drains the ring: it
reads the write index, skips what has been overwritten, and copies the slots that are left. Nothing
tells it whether a slot below the write index has been written yet.
-/

/-! ## The ring -/

/-- `CHILD_DEATH_RING_CAPACITY`. -/
def childDeathRingCapacity : Nat := 64

/-- `child_death_record_t`: a pid and a raw status. -/
abbrev ChildDeathRecord := Int × Int

/-- A call of `child_death_drain` under way: its bound, how many slots it found, how many it has copied, and
the pid it has already copied of the next one. -/
structure ChildDeathDrain where
  maxOut : Int
  available : BitVec 64
  n : Nat
  pid : Option Int

/-- The condition of the copy loop. -/
def ChildDeathDrain.more (d : ChildDeathDrain) : Prop := (d.n : Int) < d.maxOut ∧ d.n < d.available.toNat

instance (d : ChildDeathDrain) : Decidable d.more := inferInstanceAs (Decidable (_ ∧ _))

/-- The ring with its indices, and what has come out of it: the records copied and the losses reported. -/
structure ChildDeaths where
  ring : TicketRing (Fin childDeathRingCapacity) Int Int
  writeIndex : BitVec 64
  readIndex : BitVec 64
  dropped : BitVec 32
  drain : Option ChildDeathDrain
  drained : List ChildDeathRecord
  reported : Int

inductive ChildDeathStep where
  /-- `child_death_record` takes its index. -/
  | record (pid status : Int)
  /-- The call of `child_death_record` with this index writes the next field of its slot. -/
  | store (i : Nat)
  /-- `child_death_drain` begins. -/
  | drain (outNull : Bool) (maxOut : Int)
  /-- `child_death_drain` copies the next field of a slot. -/
  | copy
  /-- `child_death_drain` returns. -/
  | drainReturn
  /-- `child_death_dropped_count`. -/
  | droppedCount

namespace ChildDeaths

/-- The slot of an index. -/
def slotOf (idx : BitVec 64) : Fin childDeathRingCapacity :=
  ⟨idx.toNat % childDeathRingCapacity, Nat.mod_lt _ (Nat.zero_lt_succ 63)⟩

/-- The ring of a process that starts. -/
def start : ChildDeaths where
  ring := ⟨fun _ => (0, 0), []⟩
  writeIndex := 0
  readIndex := 0
  dropped := 0
  drain := none
  drained := []
  reported := 0

/-- The index is loaded and what has been overwritten is skipped. -/
def beginDrain (s : ChildDeaths) (maxOut : Int) : ChildDeaths :=
  let available := s.writeIndex - s.readIndex
  if available.toNat > childDeathRingCapacity then
    { s with
      dropped := s.dropped + (available - BitVec.ofNat 64 childDeathRingCapacity).setWidth 32
      readIndex := s.writeIndex - BitVec.ofNat 64 childDeathRingCapacity
      drain := some ⟨maxOut, BitVec.ofNat 64 childDeathRingCapacity, 0, none⟩ }
  else { s with drain := some ⟨maxOut, available, 0, none⟩ }

/-- One field of `out[n] = g_child_death_ring[...]`; with the second one the loop turns. -/
def copyField (s : ChildDeaths) (d : ChildDeathDrain) : ChildDeaths :=
  let cell := s.ring.cells (slotOf s.readIndex)
  match d.pid with
  | none => { s with drain := some { d with pid := some cell.1 } }
  | some pid =>
    { s with
      drained := s.drained ++ [(pid, cell.2)]
      readIndex := s.readIndex + 1
      drain := some { d with n := d.n + 1, pid := none } }

/-- `child_death_record` up to its atomic addition. -/
def beginRecord (s : ChildDeaths) (pid status : Int) : ChildDeaths :=
  { s with ring := s.ring.take (slotOf s.writeIndex) pid status, writeIndex := s.writeIndex + 1 }

def step (s : ChildDeaths) : ChildDeathStep → Option ChildDeaths
  | .record pid status => some (s.beginRecord pid status)
  | .store i => (s.ring.store i).map fun ring => { s with ring := ring }
  | .drain outNull maxOut =>
    if s.drain.isSome then none
    else if outNull ∨ maxOut ≤ 0 then some s
    else some (s.beginDrain maxOut)
  | .copy => s.drain.bind fun d => if d.more then some (s.copyField d) else none
  | .drainReturn => s.drain.bind fun d => if d.more then none else some { s with drain := none }
  | .droppedCount =>
    if s.drain.isSome then none else some { s with reported := s.reported + s.dropped.toInt, dropped := 0 }

/-! ## Pending records -/

/-- The records that the reader has not passed. -/
def pending (s : ChildDeaths) : Nat := (s.writeIndex - s.readIndex).toNat

/-- The record that the reader takes next, by its number. -/
def readTicket (s : ChildDeaths) : Nat := s.ring.calls.length - s.pending

/-- Fewer than 2^31 records are neither drained nor reported as lost. -/
def Bounded (s : ChildDeaths) : ChildDeathStep → Prop
  | .record _ _ => s.pending + s.dropped.toNat + 1 < 2 ^ 31
  | _ => True

/-- A handler writes its slot before a later record of the same slot has been written to, and a slot is
copied when its record has been written in full and no later one has been written to. -/
def Allowed (s : ChildDeaths) : ChildDeathStep → Prop
  | .store i => s.ring.Fresh i
  | .copy => s.ring.Fresh s.readTicket ∧ ∃ v, s.ring.Written s.readTicket v
  | a => s.Bounded a

/-- Every record is drained, pending or counted as lost. -/
def CountRight (s : ChildDeaths) : Prop :=
  (s.ring.calls.length : Int) = s.drained.length + s.pending + (s.reported + s.dropped.toInt)

/-- What has been drained are records written in full, each once and in the order of their indices. -/
def DrainedRight (s : ChildDeaths) : Prop :=
  ∃ tickets : List Nat, tickets.Pairwise (· < ·) ∧ tickets.Forall₂ s.ring.Written s.drained

/-! ## Counting -/

/-- The indices and the counters are those of the records. -/
structure Counted (s : ChildDeaths) : Prop where
  write : s.writeIndex = BitVec.ofNat 64 s.ring.calls.length
  pending_le : s.pending ≤ s.ring.calls.length
  bound : s.pending + s.dropped.toNat < 2 ^ 31
  drain : ∀ d, s.drain = some d → d.available.toNat ≤ s.pending + d.n
  count : (s.ring.calls.length : Int) = s.drained.length + s.pending + (s.reported + s.dropped.toNat)

variable {s s' t : ChildDeaths}

theorem counted_start : Counted start := ⟨rfl, Nat.le_refl 0, by decide, nofun, rfl⟩

theorem Counted.countRight (h : s.Counted) : s.CountRight := by
  have hbound := h.bound
  have hdropped : s.dropped.toInt = s.dropped.toNat := BitVec.toInt_eq_toNat_of_lt (by omega)
  rw [CountRight, hdropped]
  exact h.count

/-- What a step of the reader and of the counters keeps. -/
theorem Counted.of_same_ring (h : s.Counted) (hring : t.ring.calls.length = s.ring.calls.length)
    (hwrite : t.writeIndex = s.writeIndex) (hread : t.readIndex = s.readIndex) (hdrained : t.drained = s.drained)
    (hdropped : t.dropped = s.dropped) (hreported : t.reported = s.reported)
    (hdrain : ∀ d, t.drain = some d → d.available.toNat ≤ s.pending + d.n) : t.Counted := by
  have hpending : t.pending = s.pending := by rw [pending, pending, hwrite, hread]
  refine ⟨?_, ?_, ?_, ?_, ?_⟩
  · rw [hwrite, hring]
    exact h.write
  · rw [hpending, hring]
    exact h.pending_le
  · rw [hpending, hdropped]
    exact h.bound
  · rw [hpending]
    exact hdrain
  · rw [hring, hdrained, hpending, hreported, hdropped]
    exact h.count

theorem pending_beginRecord (hbound : s.pending + 1 < 2 ^ 64) (pid status : Int) :
    (s.beginRecord pid status).pending = s.pending + 1 := by
  unfold beginRecord pending at *
  bv_omega

theorem Counted.beginRecord (h : s.Counted) (hbound : s.pending + s.dropped.toNat + 1 < 2 ^ 31) (pid status : Int) :
    (s.beginRecord pid status).Counted := by
  have hpending : (s.beginRecord pid status).pending = s.pending + 1 := pending_beginRecord (by omega) pid status
  have hlength : (s.beginRecord pid status).ring.calls.length = s.ring.calls.length + 1 := List.length_append
  refine ⟨?_, ?_, ?_, ?_, ?_⟩
  · rw [hlength, BitVec.ofNat_add, ← h.write]
    rfl
  · rw [hpending, hlength]
    exact Nat.succ_le_succ h.pending_le
  · rw [hpending]
    show s.pending + 1 + s.dropped.toNat < 2 ^ 31
    omega
  · rw [hpending]
    exact fun d hd => Nat.le_trans (h.drain d hd) (by omega)
  · rw [hlength, hpending]
    show ((s.ring.calls.length + 1 : Nat) : Int) = s.drained.length + (s.pending + 1 : Nat) + (s.reported + s.dropped.toNat)
    have hcount := h.count
    omega

theorem Counted.beginDrain (h : s.Counted) (maxOut : Int) : (s.beginDrain maxOut).Counted := by
  by_cases hover : (s.writeIndex - s.readIndex).toNat > childDeathRingCapacity
  · have hmany : s.pending > 64 := hover
    have hbound := h.bound
    have hle := h.pending_le
    rw [ChildDeaths.beginDrain, if_pos hover]
    set lost := s.writeIndex - s.readIndex - BitVec.ofNat 64 childDeathRingCapacity with hlost
    have hlostNat : lost.toNat = s.pending - 64 := by
      unfold pending childDeathRingCapacity at *
      bv_omega
    have hdropped : (s.dropped + lost.setWidth 32).toNat = s.dropped.toNat + (s.pending - 64) := by
      rw [BitVec.toNat_add, BitVec.toNat_setWidth, hlostNat]
      omega
    have hpending : (s.writeIndex - (s.writeIndex - BitVec.ofNat 64 childDeathRingCapacity)).toNat = 64 := by
      unfold childDeathRingCapacity
      bv_omega
    refine ⟨h.write, ?_, ?_, ?_, ?_⟩
    · show (s.writeIndex - (s.writeIndex - BitVec.ofNat 64 childDeathRingCapacity)).toNat ≤ s.ring.calls.length
      omega
    · show (s.writeIndex - (s.writeIndex - BitVec.ofNat 64 childDeathRingCapacity)).toNat +
        (s.dropped + lost.setWidth 32).toNat < 2 ^ 31
      omega
    · rintro d hd
      cases Option.some.inj hd
      show 64 ≤ (s.writeIndex - (s.writeIndex - BitVec.ofNat 64 childDeathRingCapacity)).toNat + 0
      omega
    · show (s.ring.calls.length : Int) = s.drained.length +
        (s.writeIndex - (s.writeIndex - BitVec.ofNat 64 childDeathRingCapacity)).toNat +
          (s.reported + (s.dropped + lost.setWidth 32).toNat)
      have hcount := h.count
      omega
  · rw [ChildDeaths.beginDrain, if_neg hover]
    refine h.of_same_ring rfl rfl rfl rfl rfl rfl fun d hd => ?_
    cases Option.some.inj hd
    exact Nat.le_add_right _ _

/-- A turn of the copy loop passes one record. -/
theorem pending_copyField {d : ChildDeathDrain} {pid : Int} (hpid : d.pid = some pid) (hpos : 0 < s.pending) :
    (s.copyField d).pending = s.pending - 1 := by
  rw [copyField, hpid]
  show (s.writeIndex - (s.readIndex + 1)).toNat = s.pending - 1
  unfold pending at *
  bv_omega

theorem Counted.copyField {d : ChildDeathDrain} (h : s.Counted) (hd : s.drain = some d) (hmore : d.more) :
    (s.copyField d).Counted := by
  have hdrain := h.drain d hd
  cases hpid : d.pid with
  | none =>
    rw [ChildDeaths.copyField, hpid]
    refine h.of_same_ring rfl rfl rfl rfl rfl rfl fun e he => ?_
    cases Option.some.inj he
    exact hdrain
  | some pid =>
    have hpos : 0 < s.pending := by
      have hn := hmore.2
      omega
    have hpending : (s.copyField d).pending = s.pending - 1 := pending_copyField hpid hpos
    have hcount := h.count
    have hbound := h.bound
    have hle := h.pending_le
    rw [ChildDeaths.copyField, hpid] at hpending ⊢
    refine ⟨h.write, ?_, ?_, ?_, ?_⟩
    · rw [hpending]
      exact Nat.le_trans (Nat.sub_le _ _) hle
    · rw [hpending]
      exact Nat.lt_of_le_of_lt (Nat.add_le_add_right (Nat.sub_le _ _) _) hbound
    · rw [hpending]
      rintro e he
      cases Option.some.inj he
      show d.available.toNat ≤ s.pending - 1 + (d.n + 1)
      omega
    · rw [hpending, List.length_append, List.length_singleton]
      show (s.ring.calls.length : Int) = (s.drained.length + 1 : Nat) + (s.pending - 1 : Nat) + (s.reported + s.dropped.toNat)
      omega

theorem Counted.droppedCount (h : s.Counted) (hdrain : s.drain = none) :
    Counted { s with reported := s.reported + s.dropped.toInt, dropped := 0 } := by
  have hcount := h.countRight
  have hbound := h.bound
  refine ⟨h.write, h.pending_le, ?_, ?_, ?_⟩
  · show s.pending + 0 < 2 ^ 31
    omega
  · intro d hd
    cases hdrain.symm.trans hd
  · show (s.ring.calls.length : Int) = s.drained.length + s.pending + (s.reported + s.dropped.toInt + 0)
    rw [Int.add_zero]
    exact hcount

/-- What a step is, by its label. -/
theorem step_store {i : Nat} (h : s.step (.store i) = some t) :
    ∃ ring, s.ring.store i = some ring ∧ t = { s with ring := ring } := by
  obtain ⟨ring, hring, rfl⟩ := Option.map_eq_some_iff.mp h
  exact ⟨ring, hring, rfl⟩

theorem step_drain {outNull : Bool} {maxOut : Int} (h : s.step (.drain outNull maxOut) = some t) :
    s.drain = none ∧ (t = s ∨ t = s.beginDrain maxOut) := by
  obtain ⟨hnone, hrest⟩ := Option.ite_none_left_eq_some.mp h
  refine ⟨by simpa using hnone, ?_⟩
  split at hrest
  · exact .inl (Option.some.inj hrest).symm
  · exact .inr (Option.some.inj hrest).symm

theorem step_copy (h : s.step .copy = some t) : ∃ d, s.drain = some d ∧ d.more ∧ t = s.copyField d := by
  obtain ⟨d, hd, hrest⟩ := Option.bind_eq_some_iff.mp h
  obtain ⟨hmore, heq⟩ := Option.ite_none_right_eq_some.mp hrest
  exact ⟨d, hd, hmore, (Option.some.inj heq).symm⟩

theorem step_drainReturn (h : s.step .drainReturn = some t) : t = { s with drain := none } := by
  obtain ⟨d, -, hrest⟩ := Option.bind_eq_some_iff.mp h
  obtain ⟨-, heq⟩ := Option.ite_none_left_eq_some.mp hrest
  exact (Option.some.inj heq).symm

theorem step_droppedCount (h : s.step .droppedCount = some t) :
    s.drain = none ∧ t = { s with reported := s.reported + s.dropped.toInt, dropped := 0 } := by
  obtain ⟨hnone, heq⟩ := Option.ite_none_left_eq_some.mp h
  exact ⟨by simpa using hnone, (Option.some.inj heq).symm⟩

theorem Counted.step {a : ChildDeathStep} (h : s.Counted) (hbound : s.Bounded a) (hstep : s.step a = some t) :
    t.Counted := by
  cases a with
  | record pid status =>
    cases Option.some.inj hstep
    exact h.beginRecord hbound pid status
  | store i =>
    obtain ⟨ring, hring, rfl⟩ := step_store hstep
    exact h.of_same_ring (TicketRing.length_store hring) rfl rfl rfl rfl rfl h.drain
  | drain outNull maxOut =>
    obtain ⟨-, rfl | rfl⟩ := step_drain hstep
    · exact h
    · exact h.beginDrain maxOut
  | copy =>
    obtain ⟨d, hd, hmore, rfl⟩ := step_copy hstep
    exact h.copyField hd hmore
  | drainReturn =>
    cases step_drainReturn hstep
    exact h.of_same_ring rfl rfl rfl rfl rfl rfl nofun
  | droppedCount =>
    obtain ⟨hdrain, rfl⟩ := step_droppedCount hstep
    exact h.droppedCount hdrain

theorem counted_run (hrun : Run step Bounded start s) : s.Counted :=
  hrun.invariant (I := Counted) counted_start fun h hbound hstep => h.step hbound hstep

/-! ## What is drained -/

/-- The slots hold the records that are fresh, and what has been copied are records. -/
structure Placed (s : ChildDeaths) : Prop where
  sound : s.ring.Sound
  slots : ∀ i c, s.ring.calls[i]? = some c → c.slot = slotOf (BitVec.ofNat 64 i)
  copying : ∀ d pid, s.drain = some d → d.pid = some pid → ∃ v, s.ring.Written s.readTicket v ∧ v.1 = pid
  drained : ∃ tickets : List Nat, tickets.Pairwise (· < ·) ∧ (∀ i ∈ tickets, i < s.readTicket) ∧
    tickets.Forall₂ s.ring.Written s.drained

theorem placed_start : Placed start :=
  ⟨TicketRing.sound_empty _, nofun, nofun, [], .nil, nofun, .nil⟩

theorem Placed.drainedRight (h : s.Placed) : s.DrainedRight := by
  obtain ⟨tickets, hsorted, -, hwritten⟩ := h.drained
  exact ⟨tickets, hsorted, hwritten⟩

/-- What has been copied stays right while the reader only moves on and written records stay. -/
theorem Placed.drained_mono (h : s.Placed) (hle : s.readTicket ≤ t.readTicket) (hdrained : t.drained = s.drained)
    (hwritten : ∀ i v, s.ring.Written i v → t.ring.Written i v) :
    ∃ tickets : List Nat, tickets.Pairwise (· < ·) ∧ (∀ i ∈ tickets, i < t.readTicket) ∧
      tickets.Forall₂ t.ring.Written t.drained := by
  obtain ⟨tickets, hsorted, hbelow, hall⟩ := h.drained
  rw [hdrained]
  exact ⟨tickets, hsorted, fun i hi => Nat.lt_of_lt_of_le (hbelow i hi) hle, hall.imp hwritten⟩

theorem Counted.readIndex_eq (h : s.Counted) : s.readIndex = BitVec.ofNat 64 s.readTicket := by
  have hle := h.pending_le
  have hwrite := h.write
  unfold readTicket pending at *
  bv_omega

theorem Placed.beginRecord (h : s.Placed) (hcounted : s.Counted) (hbound : s.pending + s.dropped.toNat + 1 < 2 ^ 31)
    (pid status : Int) : (s.beginRecord pid status).Placed := by
  have hpending : (s.beginRecord pid status).pending = s.pending + 1 := pending_beginRecord (by omega) pid status
  have hlength : (s.beginRecord pid status).ring.calls.length = s.ring.calls.length + 1 := List.length_append
  have hread : (s.beginRecord pid status).readTicket = s.readTicket := by
    rw [readTicket, hpending, hlength, Nat.add_sub_add_right]
    rfl
  have hkept : ∀ i v, s.ring.Written i v → (s.beginRecord pid status).ring.Written i v :=
    fun i v hw => hw.take (slotOf s.writeIndex) pid status
  refine ⟨h.sound.take _ _ _, ?_, ?_, h.drained_mono (Nat.le_of_eq hread.symm) rfl hkept⟩
  · intro i c hc
    by_cases hlt : i < s.ring.calls.length
    · exact h.slots i c ((List.getElem?_append_left hlt).symm.trans hc)
    · have hbelow : i < (s.beginRecord pid status).ring.calls.length := (List.getElem?_eq_some_iff.mp hc).1
      obtain rfl : i = s.ring.calls.length := by omega
      have hnew : (s.beginRecord pid status).ring.calls[s.ring.calls.length]? =
          some ⟨slotOf s.writeIndex, pid, status, .taken⟩ := List.getElem?_concat_length
      cases Option.some.inj (hnew.symm.trans hc)
      rw [hcounted.write]
  · intro d p hd hp
    obtain ⟨v, hv, hfirst⟩ := h.copying d p hd hp
    rw [hread]
    exact ⟨v, hkept _ _ hv, hfirst⟩

theorem Placed.store {i : Nat} {ring : TicketRing (Fin childDeathRingCapacity) Int Int} (h : s.Placed)
    (hfresh : s.ring.Fresh i) (hring : s.ring.store i = some ring) : Placed { s with ring := ring } := by
  have hread : readTicket { s with ring := ring } = s.readTicket := by
    rw [readTicket, readTicket, TicketRing.length_store hring]
    rfl
  have hkept : ∀ j v, s.ring.Written j v → ring.Written j v := fun j v hw => hw.store hring
  refine ⟨h.sound.store hfresh hring, ?_, ?_, h.drained_mono (Nat.le_of_eq hread.symm) rfl hkept⟩
  · intro j c hc
    obtain ⟨b, hb, hslot⟩ := TicketRing.slot_store hring hc
    exact hslot.symm.trans (h.slots j b hb)
  · intro d p hd hp
    obtain ⟨v, hv, hfirst⟩ := h.copying d p hd hp
    rw [hread]
    exact ⟨v, hkept _ _ hv, hfirst⟩

theorem Placed.beginDrain (h : s.Placed) (hcounted : s.Counted) (maxOut : Int) : (s.beginDrain maxOut).Placed := by
  have hafter := hcounted.beginDrain maxOut
  by_cases hover : (s.writeIndex - s.readIndex).toNat > childDeathRingCapacity
  · have hle : s.readTicket ≤ (s.beginDrain maxOut).readTicket := by
      have hmany : s.pending > 64 := hover
      rw [ChildDeaths.beginDrain, if_pos hover]
      show s.ring.calls.length - s.pending ≤ s.ring.calls.length -
        (s.writeIndex - (s.writeIndex - BitVec.ofNat 64 childDeathRingCapacity)).toNat
      have hpending : (s.writeIndex - (s.writeIndex - BitVec.ofNat 64 childDeathRingCapacity)).toNat = 64 := by
        unfold childDeathRingCapacity
        bv_omega
      omega
    have hdrained := h.drained_mono (t := s.beginDrain maxOut) hle (by rw [ChildDeaths.beginDrain, if_pos hover]) (by
      rw [ChildDeaths.beginDrain, if_pos hover]
      exact fun i v hw => hw)
    rw [ChildDeaths.beginDrain, if_pos hover] at hdrained ⊢
    refine ⟨h.sound, h.slots, ?_, hdrained⟩
    intro d p hd hp
    cases Option.some.inj hd
    cases hp
  · rw [ChildDeaths.beginDrain, if_neg hover]
    refine ⟨h.sound, h.slots, ?_, h.drained⟩
    intro d p hd hp
    cases Option.some.inj hd
    cases hp

/-- The slot that the reader copies holds the record it stands for. -/
theorem Placed.cell_eq {v : ChildDeathRecord} (h : s.Placed) (hcounted : s.Counted) (hfresh : s.ring.Fresh s.readTicket)
    (hv : s.ring.Written s.readTicket v) : s.ring.cells (slotOf s.readIndex) = v := by
  obtain ⟨c, hc, hwritten, heq⟩ := hv
  rw [hcounted.readIndex_eq, ← h.slots _ c hc, ← heq]
  exact h.sound.cells_eq hc hwritten hfresh

theorem Placed.copyField {d : ChildDeathDrain} (h : s.Placed) (hcounted : s.Counted) (hd : s.drain = some d)
    (hmore : d.more) (hfresh : s.ring.Fresh s.readTicket) (hwritten : ∃ v, s.ring.Written s.readTicket v) :
    (s.copyField d).Placed := by
  obtain ⟨v, hv⟩ := hwritten
  have hcell := h.cell_eq hcounted hfresh hv
  cases hpid : d.pid with
  | none =>
    rw [ChildDeaths.copyField, hpid]
    refine ⟨h.sound, h.slots, ?_, h.drained⟩
    intro e p he hp
    cases Option.some.inj he
    refine ⟨v, hv, ?_⟩
    rw [← hcell]
    exact Option.some.inj hp
  | some pid =>
    have hpos : 0 < s.pending := by
      have hn := hmore.2
      have hdrain := hcounted.drain d hd
      omega
    have hpending : (s.copyField d).pending = s.pending - 1 := pending_copyField hpid hpos
    have hread : (s.copyField d).readTicket = s.readTicket + 1 := by
      have hle := hcounted.pending_le
      have hlength : (s.copyField d).ring.calls.length = s.ring.calls.length := by rw [ChildDeaths.copyField, hpid]
      rw [readTicket, readTicket, hpending, hlength]
      omega
    obtain ⟨v', hv', hfirst⟩ := h.copying d pid hd hpid
    have hpair : (pid, (s.ring.cells (slotOf s.readIndex)).2) = v := by
      rw [hcell, ← hfirst, hv'.unique hv]
    obtain ⟨tickets, hsorted, hbelow, hall⟩ := h.drained
    rw [ChildDeaths.copyField, hpid] at hread ⊢
    refine ⟨h.sound, h.slots, ?_, tickets ++ [s.readTicket], ?_, ?_, ?_⟩
    · intro e p he hp
      cases Option.some.inj he
      cases hp
    · refine List.pairwise_append.mpr ⟨hsorted, List.pairwise_singleton _ _, fun i hi j hj => ?_⟩
      rw [List.mem_singleton.mp hj]
      exact hbelow i hi
    · intro i hi
      rw [hread]
      rcases List.mem_append.mp hi with hold | hlast
      · exact Nat.lt_succ_of_lt (hbelow i hold)
      · rw [List.mem_singleton.mp hlast]
        exact Nat.lt_succ_self _
    · show tickets ++ [s.readTicket] |>.Forall₂ s.ring.Written (s.drained ++ [(pid, (s.ring.cells (slotOf s.readIndex)).2)])
      rw [hpair]
      exact List.rel_append hall (.cons hv .nil)

theorem Allowed.bounded {a : ChildDeathStep} (h : s.Allowed a) : s.Bounded a := by
  cases a with
  | record pid status => exact h
  | _ => trivial

theorem Placed.step {a : ChildDeathStep} (h : s.Placed) (hcounted : s.Counted) (hok : s.Allowed a)
    (hstep : s.step a = some t) : t.Placed := by
  cases a with
  | record pid status =>
    cases Option.some.inj hstep
    exact h.beginRecord hcounted hok pid status
  | store i =>
    obtain ⟨ring, hring, rfl⟩ := step_store hstep
    exact h.store hok hring
  | drain outNull maxOut =>
    obtain ⟨-, rfl | rfl⟩ := step_drain hstep
    · exact h
    · exact h.beginDrain hcounted maxOut
  | copy =>
    obtain ⟨d, hd, hmore, rfl⟩ := step_copy hstep
    exact h.copyField hcounted hd hmore hok.1 hok.2
  | drainReturn =>
    cases step_drainReturn hstep
    exact ⟨h.sound, h.slots, nofun, h.drained⟩
  | droppedCount =>
    obtain ⟨hdrain, rfl⟩ := step_droppedCount hstep
    exact ⟨h.sound, h.slots, h.copying, h.drained⟩

theorem placed_run (hrun : Run step Allowed start s) : s.Counted ∧ s.Placed :=
  hrun.invariant (I := fun s => s.Counted ∧ s.Placed) ⟨counted_start, placed_start⟩ fun h hok hstep =>
    ⟨h.1.step hok.bounded hstep, h.2.step h.1 hok hstep⟩

end ChildDeaths

/-! ## Runs -/

open ChildDeaths in
/-- In every run the records are those drained, those pending and those counted as lost; and when every
slot is written in turn and read when it is written, what is drained are the records, each once and in
order. -/
theorem childDeath_drained_right (s : ChildDeaths) :
    (Run step Bounded start s → s.CountRight) ∧ (Run step Allowed start s → s.CountRight ∧ s.DrainedRight) := by
  refine ⟨fun hrun => (counted_run hrun).countRight, fun hrun => ?_⟩
  obtain ⟨hcounted, hplaced⟩ := placed_run hrun
  exact ⟨hcounted.countRight, hplaced.drainedRight⟩

namespace ChildDeaths

/-- A handler records a death and the orchestrator begins to drain. -/
def recordThenDrain : List ChildDeathStep := [.record 7 9, .store 0, .store 0, .drain false 64]

/-- The orchestrator drains while a handler is between its two accesses. -/
def drainBeforeStore : List ChildDeathStep := [.record 7 9, .drain false 64, .copy, .copy]

end ChildDeaths

open ChildDeaths in
/-- A recorded death is drained. -/
theorem childDeath_drained_right_one : ∃ s, Run.exec step start (recordThenDrain ++ [.copy, .copy]) = some s ∧
    s.drained = [(7, 9)] ∧ s.CountRight ∧ s.DrainedRight := by
  have hfresh : ∀ t : ChildDeaths, t.ring.calls.length = 1 → t.ring.Fresh 0 := fun t ht c hc j d hj hd => by
    have hlt : j < t.ring.calls.length := (List.getElem?_eq_some_iff.mp hd).1
    omega
  refine ⟨_, rfl, rfl, (childDeath_drained_right _).2 ?_⟩
  refine .tail (a := .copy) (.tail (a := .copy) (.tail (a := .drain false 64) (.tail (a := .store 0) (.tail (a := .store 0)
    (.tail (a := .record 7 9) .refl ?_ rfl) ?_ rfl) ?_ rfl) ?_ rfl) ?_ rfl) ?_ rfl
  · show 0 + 0 + 1 < 2 ^ 31
    decide
  · exact hfresh _ rfl
  · exact hfresh _ rfl
  · trivial
  · exact ⟨hfresh _ rfl, (7, 9), ⟨_, rfl, rfl, rfl⟩⟩
  · exact ⟨hfresh _ rfl, (7, 9), ⟨_, rfl, rfl, rfl⟩⟩

open ChildDeaths in
/-- A drain between the two accesses of a handler returns a record that nobody made. -/
theorem childDeath_drained_early : ∃ s, Run.exec step start drainBeforeStore = some s ∧ s.drained = [(0, 0)] ∧
    ¬ s.DrainedRight := by
  refine ⟨_, rfl, rfl, ?_⟩
  rintro ⟨tickets, -, hall⟩
  obtain ⟨i, -, ⟨c, hc, hwritten, -⟩, -, -⟩ := List.forall₂_cons_right_iff.mp hall
  obtain ⟨hi, rfl⟩ := List.getElem?_eq_some_iff.mp hc
  obtain rfl : i = 0 := Nat.lt_one_iff.mp hi
  cases hwritten
