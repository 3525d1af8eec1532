-- SUMMARY: The cooperative quiescence gate: no holder of a slot runs its body while the gate is quiesced.
import EternityII.Base.Runs
import Mathlib.Data.Fintype.Basic
import Mathlib.Data.List.FinRange

/-!
# The fork gate

Participants register for one of a fixed number of slots and call a checkpoint at the head
of each turn. A requester sets a flag and waits until every slot in use is parked or blocked.
Each critical section under `g_mutex` is one step; the fast read of the flag in
`fork_gate_checkpoint` is a step of its own, since it takes no lock.
-/

/-! ## The shared state -/

/-- `FORK_GATE_MAX_PARTICIPANTS`. -/
def forkGateMaxParticipants : Nat := 8

/-- `fork_gate_state_t`. -/
inductive ForkGateState
  | running
  | parked
  | blocked
  deriving DecidableEq, Repr

/-- `fork_gate_slot_t`, without the name that only diagnostics read. -/
structure ForkGateSlot where
  inUse : Bool
  state : ForkGateState
  deriving DecidableEq, Repr

/-- What `fork_gate_register` returns: a slot, or `none` for `FORK_GATE_FULL`. -/
abbrev SlotResult : Type := Option (Fin forkGateMaxParticipants)

/-- The variables that `g_mutex` protects. -/
structure ForkGate where
  slots : Fin forkGateMaxParticipants → ForkGateSlot
  quiesceRequested : Bool

namespace ForkGate

/-- `fork_gate_reset`. -/
def reset : ForkGate where
  slots _ := ⟨false, .running⟩
  quiesceRequested := false

/-- Write the state of a slot. -/
def setState (gate : ForkGate) (k : Fin forkGateMaxParticipants) (state : ForkGateState) : ForkGate :=
  { gate with slots := Function.update gate.slots k { gate.slots k with state := state } }

/-- `fork_gate_register`: the first free slot. -/
def register (gate : ForkGate) : ForkGate × SlotResult :=
  match (List.finRange forkGateMaxParticipants).find? fun k => !(gate.slots k).inUse with
  | none => (gate, none)
  | some k => ({ gate with slots := Function.update gate.slots k ⟨true, .running⟩ }, some k)

/-- `fork_gate_unregister`. -/
def unregister (gate : ForkGate) (slot : SlotResult) : ForkGate :=
  match slot with
  | none => gate
  | some k => { gate with slots := Function.update gate.slots k { gate.slots k with inUse := false } }

/-- `fork_gate_mark_blocked`. -/
def markBlocked (gate : ForkGate) (slot : SlotResult) (blocked : Bool) : ForkGate :=
  match slot with
  | none => gate
  | some k => gate.setState k (if blocked then .blocked else .running)

/-- `all_participants_quiescent_locked`. -/
def allParticipantsQuiescentLocked (gate : ForkGate) : Bool :=
  (List.finRange forkGateMaxParticipants).all fun k =>
    !((gate.slots k).inUse && (gate.slots k).state = .running)

end ForkGate

/-! ## Participants and requester -/

/-- Where a participant stands. -/
inductive ParticipantPc
  /-- Before `fork_gate_register`, or after `fork_gate_unregister`. -/
  | outside
  /-- At the call of `fork_gate_checkpoint`. -/
  | checkpoint
  /-- In `fork_gate_checkpoint`, past a fast read that saw a request. -/
  | locking
  /-- In `pthread_cond_wait` on `g_released`, woken up or not. -/
  | waiting (woken : Bool)
  /-- In its loop body. -/
  | body
  /-- In the blocking call of its bracket. -/
  | blockingCall
  deriving DecidableEq, Repr

/-- A participant: its position and the slot it passes to the calls. -/
structure Participant where
  pc : ParticipantPc
  slot : SlotResult
  deriving DecidableEq, Repr

/-- A waiting participant is woken up. -/
def Participant.wakeUp (p : Participant) : Participant :=
  match p.pc with
  | .waiting _ => { p with pc := .waiting true }
  | _ => p

/-- Where the requester stands: between two rounds, in the wait of
`fork_gate_request_quiesce`, or between its return `FORK_GATE_QUIESCED` and
`fork_gate_release_quiesce`. -/
inductive RequesterPc
  | idle
  | waiting
  | quiesced
  deriving DecidableEq, Repr

/-- The gate with its users. -/
structure GateSystem (ι : Type*) where
  gate : ForkGate
  participants : ι → Participant
  requester : RequesterPc

/-- What may happen next. -/
inductive GateStep (ι : Type*)
  | register (i : ι)
  | fastRead (i : ι)
  | lockedRead (i : ι)
  | spuriousWakeup (i : ι)
  | leaveWait (i : ι)
  | nextTurn (i : ι)
  | markBlocked (i : ι)
  | unmarkBlocked (i : ι)
  | unregister (i : ι)
  | requestQuiesce
  | recheck
  | timeout
  | releaseQuiesce

namespace GateSystem

variable {ι : Type*} [DecidableEq ι]

/-- Nobody is registered and nothing is requested. -/
def start : GateSystem ι := ⟨.reset, fun _ => ⟨.outside, none⟩, .idle⟩

/-- A participant goes on, with the gate as its call left it. -/
def goTo (g : GateSystem ι) (i : ι) (gate : ForkGate) (pc : ParticipantPc) (slot : SlotResult) :
    GateSystem ι :=
  { g with gate := gate, participants := Function.update g.participants i ⟨pc, slot⟩ }

/-- Clear the flag and `pthread_cond_broadcast` on `g_released`: the end of
`fork_gate_release_quiesce`, and of a request that timed out. -/
def cancel (g : GateSystem ι) : GateSystem ι where
  gate := { g.gate with quiesceRequested := false }
  participants i := (g.participants i).wakeUp
  requester := .idle

/-- The requester's test of `all_participants_quiescent_locked`; while it fails the requester waits. -/
def evaluate (g : GateSystem ι) : GateSystem ι :=
  { g with requester := if g.gate.allParticipantsQuiescentLocked then .quiesced else .waiting }

/-- One step of one thread. -/
def step (g : GateSystem ι) : GateStep ι → Option (GateSystem ι)
  | .register i =>
    if (g.participants i).pc = .outside then
      some (g.goTo i g.gate.register.1 .checkpoint g.gate.register.2)
    else none
  | .fastRead i =>
    if (g.participants i).pc = .checkpoint then
      -- a negative slot returns at once, as does a flag that is not set
      if (g.participants i).slot = none ∨ g.gate.quiesceRequested = false then
        some (g.goTo i g.gate .body (g.participants i).slot)
      else some (g.goTo i g.gate .locking (g.participants i).slot)
    else none
  | .lockedRead i =>
    if (g.participants i).pc = .locking then
      match (g.participants i).slot with
      | none => none
      | some k =>
        if g.gate.quiesceRequested then some (g.goTo i (g.gate.setState k .parked) (.waiting false) (some k))
        else some (g.goTo i g.gate .body (some k))
    else none
  | .spuriousWakeup i =>
    if (g.participants i).pc = .waiting false then
      some (g.goTo i g.gate (.waiting true) (g.participants i).slot)
    else none
  | .leaveWait i =>
    if (g.participants i).pc = .waiting true then
      match (g.participants i).slot with
      | none => none
      | some k =>
        if g.gate.quiesceRequested then some (g.goTo i g.gate (.waiting false) (some k))
        else some (g.goTo i (g.gate.setState k .running) .body (some k))
    else none
  | .nextTurn i =>
    if (g.participants i).pc = .body then some (g.goTo i g.gate .checkpoint (g.participants i).slot)
    else none
  | .markBlocked i =>
    if (g.participants i).pc = .body then
      some (g.goTo i (g.gate.markBlocked (g.participants i).slot true) .blockingCall (g.participants i).slot)
    else none
  | .unmarkBlocked i =>
    if (g.participants i).pc = .blockingCall then
      some (g.goTo i (g.gate.markBlocked (g.participants i).slot false) .checkpoint (g.participants i).slot)
    else none
  | .unregister i =>
    if (g.participants i).pc = .body then
      some (g.goTo i (g.gate.unregister (g.participants i).slot) .outside none)
    else none
  | .requestQuiesce =>
    if g.requester = .idle then
      some { g with gate := { g.gate with quiesceRequested := true } }.evaluate
    else none
  | .recheck => if g.requester = .waiting then some g.evaluate else none
  | .timeout =>
    if g.requester = .waiting then
      if g.gate.allParticipantsQuiescentLocked then some g.evaluate else some g.cancel
    else none
  | .releaseQuiesce => if g.requester = .quiesced then some g.cancel else none

/-- The states that some interleaving reaches. -/
def Reachable (g : GateSystem ι) : Prop := Run step (fun _ _ => True) start g

end GateSystem

/-! ## The invariant -/

/-- The state that the slot of a participant shows. -/
def ParticipantPc.shown : ParticipantPc → ForkGateState
  | .waiting _ => .parked
  | .blockingCall => .blocked
  | _ => .running

/-- What holds of one participant: its slot is in use and shows where it stands, only holders of
a slot park, no holder runs its body while the gate is quiesced, and a wait without a pending
request has been woken up. -/
structure Participant.Fits (gate : ForkGate) (requester : RequesterPc) (p : Participant) : Prop where
  held : ∀ k, p.slot = some k → gate.slots k = ⟨true, p.pc.shown⟩
  outside : p.pc = .outside → p.slot = none
  unslotted : p.slot = none → p.pc ≠ .locking ∧ ∀ woken, p.pc ≠ .waiting woken
  quiet : requester = .quiesced → p.slot ≠ none → p.pc ≠ .body
  woken : gate.quiesceRequested = false → p.pc ≠ .waiting false

/-- The invariant of the gate: the flag is set during a round, no slot has two holders, and every
participant fits. -/
structure GateSystem.Inv {ι : Type*} (g : GateSystem ι) : Prop where
  flag : g.gate.quiesceRequested = true ↔ g.requester ≠ .idle
  distinct : ∀ i j k, (g.participants i).slot = some k → (g.participants j).slot = some k → i = j
  fits : ∀ i, (g.participants i).Fits g.gate g.requester

section Calls

variable {gate : ForkGate} {k l : Fin forkGateMaxParticipants}

/-- A wake-up leaves the slot. -/
theorem Participant.wakeUp_slot (p : Participant) : p.wakeUp.slot = p.slot := by
  unfold wakeUp
  split <;> rfl

/-- Without a request, a participant fits once its wait is woken up. -/
theorem Participant.Fits.wakeUp {requester : RequesterPc} {p : Participant} (h : p.Fits gate requester) :
    p.wakeUp.Fits { gate with quiesceRequested := false } .idle := by
  obtain ⟨pc, slot⟩ := p
  cases pc with
  | waiting woken =>
    exact
      { held := h.held
        outside := fun hout => by cases hout
        unslotted := fun hnone => absurd rfl ((h.unslotted hnone).2 woken)
        quiet := fun hquiesced => by cases hquiesced
        woken := fun _ hwait => by cases hwait }
  | _ =>
    exact
      { held := h.held
        outside := h.outside
        unslotted := h.unslotted
        quiet := fun hquiesced => by cases hquiesced
        woken := fun _ hwait => by cases hwait }

/-- A participant that moves on while its slot shows the same. -/
theorem Participant.Fits.move {requester : RequesterPc} {p : Participant} {pc : ParticipantPc}
    (h : p.Fits gate requester) (hshown : pc.shown = p.pc.shown) (hoff : pc ≠ .outside)
    (hslot : p.slot = none → pc ≠ .locking ∧ ∀ woken, pc ≠ .waiting woken)
    (hquiet : requester = .quiesced → p.slot ≠ none → pc ≠ .body)
    (hwoken : gate.quiesceRequested = false → pc ≠ .waiting false) :
    (⟨pc, p.slot⟩ : Participant).Fits gate requester where
  held k hk := by rw [h.held k hk, hshown]
  outside hout := absurd hout hoff
  unslotted := hslot
  quiet := hquiet
  woken := hwoken

/-- A registration takes a slot that was free, and leaves the others. -/
theorem ForkGate.register_spec (h : gate.register.2 = some k) :
    (gate.slots k).inUse = false ∧
      gate.register.1 = { gate with slots := Function.update gate.slots k ⟨true, .running⟩ } := by
  unfold register at h ⊢
  split at h
  · cases h
  · rename_i k' hfind
    cases Option.some.inj h
    have hfree := List.find?_some hfind
    exact ⟨by simpa using hfree, rfl⟩

/-- A registration that is refused leaves the gate, and every slot is in use. -/
theorem ForkGate.register_full (h : gate.register.2 = none) :
    gate.register.1 = gate ∧ ∀ k, (gate.slots k).inUse = true := by
  unfold register at h ⊢
  split at h
  · rename_i hfind
    refine ⟨rfl, fun k => ?_⟩
    have hused := List.find?_eq_none.mp hfind k (List.mem_finRange k)
    simpa using hused
  · cases h

theorem ForkGate.allParticipantsQuiescentLocked_iff : gate.allParticipantsQuiescentLocked = true ↔
    ∀ k, (gate.slots k).inUse = true → (gate.slots k).state ≠ .running := by
  simp [allParticipantsQuiescentLocked, ← imp_iff_not_or, ← Bool.not_eq_true]

theorem ForkGate.setState_of_ne {state : ForkGateState} (h : l ≠ k) :
    (gate.setState k state).slots l = gate.slots l := by
  rw [setState]
  exact Function.update_of_ne h _ _

end Calls

namespace GateSystem

variable {ι : Type*} [DecidableEq ι] {g g' : GateSystem ι} {i : ι}

@[simp] theorem goTo_participants_self {gate : ForkGate} {pc : ParticipantPc} {slot : SlotResult} :
    (g.goTo i gate pc slot).participants i = ⟨pc, slot⟩ := Function.update_self ..

theorem goTo_participants_of_ne {gate : ForkGate} {pc : ParticipantPc} {slot : SlotResult} {j : ι}
    (h : j ≠ i) : (g.goTo i gate pc slot).participants j = g.participants j := Function.update_of_ne h ..

/-- A participant goes on: it fits where it stands then, its slot is nobody else's, and the slots of
the others are left. -/
theorem Inv.goTo {gate : ForkGate} {pc : ParticipantPc} {slot : SlotResult} (h : g.Inv)
    (hflag : gate.quiesceRequested = g.gate.quiesceRequested)
    (hfits : (⟨pc, slot⟩ : Participant).Fits gate g.requester)
    (hothers : ∀ j, j ≠ i → ∀ k, (g.participants j).slot = some k →
      slot ≠ some k ∧ gate.slots k = g.gate.slots k) : (g.goTo i gate pc slot).Inv where
  flag := by
    show gate.quiesceRequested = true ↔ g.requester ≠ .idle
    rw [hflag]
    exact h.flag
  distinct := by
    intro j j' k hj hj'
    by_cases hji : j = i <;> by_cases hji' : j' = i
    · rw [hji, hji']
    · subst hji
      rw [goTo_participants_self] at hj
      rw [goTo_participants_of_ne hji'] at hj'
      exact absurd hj (hothers j' hji' k hj').1
    · subst hji'
      rw [goTo_participants_self] at hj'
      rw [goTo_participants_of_ne hji] at hj
      exact absurd hj' (hothers j hji k hj).1
    · rw [goTo_participants_of_ne hji] at hj
      rw [goTo_participants_of_ne hji'] at hj'
      exact h.distinct j j' k hj hj'
  fits := by
    intro j
    by_cases hji : j = i
    · subst hji
      rw [goTo_participants_self]
      exact hfits
    · have hj := h.fits j
      rw [goTo_participants_of_ne hji]
      exact
        { hj with
          held := fun k hk => (hothers j hji k hk).2.trans (hj.held k hk)
          woken := fun hflag' => hj.woken (hflag ▸ hflag') }

/-- A step that leaves the gate and the slot of its participant. -/
theorem Inv.goTo_same {pc : ParticipantPc} (h : g.Inv)
    (hfits : (⟨pc, (g.participants i).slot⟩ : Participant).Fits g.gate g.requester) :
    (g.goTo i g.gate pc (g.participants i).slot).Inv :=
  h.goTo rfl hfits fun j hj _ hk => ⟨fun hi => hj (h.distinct j i _ hk hi), rfl⟩

/-- A step that writes the state of the slot of its participant. -/
theorem Inv.goTo_setState {pc : ParticipantPc} {k : Fin forkGateMaxParticipants} {state : ForkGateState}
    (h : g.Inv) (hk : (g.participants i).slot = some k) (hshown : pc.shown = state)
    (hoff : pc ≠ .outside) (hquiet : g.requester = .quiesced → pc ≠ .body)
    (hwoken : g.gate.quiesceRequested = false → pc ≠ .waiting false) :
    (g.goTo i (g.gate.setState k state) pc (some k)).Inv := by
  refine h.goTo rfl ?_ ?_
  · refine ⟨?_, fun hout => absurd hout hoff, fun hnone => (by cases hnone), fun hq _ => hquiet hq, hwoken⟩
    intro k' hk'
    cases Option.some.inj hk'
    have hused := (h.fits i).held k hk
    show (Function.update g.gate.slots k _) k = _
    rw [Function.update_self, hused, hshown]
  · intro j hj l hl
    have hne : l ≠ k := fun heq => hj (h.distinct j i l hl (heq ▸ hk))
    exact ⟨fun heq => hne (Option.some.inj heq).symm, ForkGate.setState_of_ne hne⟩

end GateSystem

namespace GateSystem

variable {ι : Type*} [DecidableEq ι] {g g' : GateSystem ι} {i : ι}

omit [DecidableEq ι] in
theorem inv_start : (start : GateSystem ι).Inv where
  flag := ⟨fun hflag => (by cases hflag), fun hidle => absurd rfl hidle⟩
  distinct := by
    intro i j k hi
    cases hi
  fits := by
    intro i
    refine ⟨?_, fun _ => rfl, fun _ => ⟨?_, ?_⟩, ?_, ?_⟩
    · intro k hk
      cases hk
    all_goals intros; intro h; cases h

omit [DecidableEq ι] in
/-- The requester's test: when it succeeds no holder of a slot is in its body. -/
theorem Inv.evaluate (h : g.Inv) (hflag : g.gate.quiesceRequested = true) : g.evaluate.Inv where
  flag := by
    rw [GateSystem.evaluate]
    exact iff_of_true hflag (by split <;> simp)
  distinct := h.distinct
  fits := by
    intro i
    have hi := h.fits i
    refine { hi with quiet := fun hquiesced hslot hbody => ?_ }
    obtain ⟨k, hk⟩ := Option.ne_none_iff_exists'.mp hslot
    have hall : g.gate.allParticipantsQuiescentLocked = true := by
      by_contra hnot
      rw [GateSystem.evaluate, if_neg hnot] at hquiesced
      cases hquiesced
    have hshown : g.gate.slots k = ⟨true, .running⟩ := by
      rw [hi.held k hk, show (g.participants i).pc = .body from hbody]
      rfl
    exact ForkGate.allParticipantsQuiescentLocked_iff.mp hall k (by rw [hshown]) (by rw [hshown])

omit [DecidableEq ι] in
/-- The end of a round: every wait has been woken up. -/
theorem Inv.cancel (h : g.Inv) : g.cancel.Inv where
  flag := ⟨fun hflag => (by cases hflag), fun hidle => absurd rfl hidle⟩
  distinct := by
    intro i j k hi hj
    exact h.distinct i j k ((g.participants i).wakeUp_slot ▸ hi) ((g.participants j).wakeUp_slot ▸ hj)
  fits i := (h.fits i).wakeUp

omit [DecidableEq ι] in
/-- Without a request the gate is not quiesced. -/
theorem Inv.not_quiesced (h : g.Inv) (hclear : g.gate.quiesceRequested = false) : g.requester ≠ .quiesced := by
  intro hquiesced
  have hset := h.flag.mpr (by rw [hquiesced]; simp)
  rw [hset] at hclear
  cases hclear

omit [DecidableEq ι] in
/-- `fork_gate_request_quiesce` up to its first wait or its return. -/
theorem Inv.request (h : g.Inv) :
    { g with gate := { g.gate with quiesceRequested := true } }.evaluate.Inv := by
  have hwaiting : (⟨{ g.gate with quiesceRequested := true }, g.participants, .waiting⟩ : GateSystem ι).Inv := by
    refine ⟨iff_of_true rfl (by simp), h.distinct, fun i => ?_⟩
    have hi := h.fits i
    exact ⟨hi.held, hi.outside, hi.unslotted, fun hquiesced => (by cases hquiesced), fun hclear => (by cases hclear)⟩
  exact hwaiting.evaluate rfl

/-- `fork_gate_register`. -/
theorem Inv.register (h : g.Inv) : (g.goTo i g.gate.register.1 .checkpoint g.gate.register.2).Inv := by
  cases hslot : g.gate.register.2 with
  | none =>
    rw [(ForkGate.register_full hslot).1]
    apply h.goTo rfl
    · exact ⟨fun k hk => (by cases hk), fun hout => (by cases hout), fun _ => ⟨by simp, by simp⟩,
        fun _ hne => absurd rfl hne, by simp⟩
    · exact fun j _ k _ => ⟨by simp, rfl⟩
  | some k =>
    obtain ⟨hfree, hgate⟩ := ForkGate.register_spec hslot
    rw [hgate]
    refine h.goTo rfl ?_ ?_
    · refine ⟨fun l hl => ?_, fun hout => (by cases hout), fun hnone => (by cases hnone), by simp, by simp⟩
      cases Option.some.inj hl
      exact Function.update_self ..
    · intro j hj l hl
      -- the slots that are held are in use
      have hne : l ≠ k := by
        rintro rfl
        rw [(h.fits j).held l hl] at hfree
        cases hfree
      exact ⟨fun heq => hne (Option.some.inj heq).symm, Function.update_of_ne hne ..⟩

/-- `fork_gate_unregister`. -/
theorem Inv.unregister (h : g.Inv) :
    (g.goTo i (g.gate.unregister (g.participants i).slot) .outside none).Inv := by
  have hfits : ∀ gate : ForkGate, (⟨.outside, none⟩ : Participant).Fits gate g.requester := by
    intro gate
    exact ⟨fun k hk => (by cases hk), fun _ => rfl, fun _ => ⟨by simp, by simp⟩,
      fun _ hne => absurd rfl hne, by simp⟩
  cases hslot : (g.participants i).slot with
  | none => exact h.goTo rfl (hfits _) fun j _ k _ => ⟨by simp, rfl⟩
  | some k =>
    refine h.goTo rfl (hfits _) fun j hj l hl => ⟨by simp, ?_⟩
    have hne : l ≠ k := fun heq => hj (h.distinct j i l hl (heq ▸ hslot))
    exact Function.update_of_ne hne ..

/-- `fork_gate_mark_blocked`. -/
theorem Inv.markBlocked {blocked : Bool} {pc : ParticipantPc} (h : g.Inv)
    (hshown : pc.shown = if blocked then .blocked else .running) (hoff : pc ≠ .outside)
    (hlocking : pc ≠ .locking) (hwaiting : ∀ woken, pc ≠ .waiting woken) (hbody : pc ≠ .body) :
    (g.goTo i (g.gate.markBlocked (g.participants i).slot blocked) pc (g.participants i).slot).Inv := by
  cases hslot : (g.participants i).slot with
  | none =>
    apply h.goTo rfl
    · exact ⟨fun k hk => (by cases hk), fun hout => absurd hout hoff, fun _ => ⟨hlocking, hwaiting⟩,
        fun _ _ => hbody, fun _ => hwaiting false⟩
    · exact fun j _ k _ => ⟨by simp, rfl⟩
  | some k => exact h.goTo_setState hslot hshown hoff (fun _ => hbody) fun _ => hwaiting false

/-- One step keeps the invariant. -/
theorem Inv.step (h : g.Inv) {a : GateStep ι} (hstep : g.step a = some g') : g'.Inv := by
  cases a with
  | register i =>
    obtain ⟨-, hg⟩ := Option.ite_none_right_eq_some.mp hstep
    cases hg
    exact h.register
  | fastRead i =>
    obtain ⟨hpc, hstep⟩ := Option.ite_none_right_eq_some.mp hstep
    split at hstep
    · rename_i hfast
      cases hstep
      apply h.goTo_same
      apply (h.fits i).move (by rw [hpc]; rfl) (by simp) (by simp) ?_ (by simp)
      -- during a round the flag is set, so only a negative slot passes
      intro hquiesced hslot
      exact absurd hquiesced (h.not_quiesced (hfast.resolve_left hslot))
    · rename_i hslow
      rw [not_or] at hslow
      cases hstep
      apply h.goTo_same
      exact (h.fits i).move (by rw [hpc]; rfl) (by simp) (fun hnone => absurd hnone hslow.1) (by simp) (by simp)
  | lockedRead i =>
    obtain ⟨hpc, hstep⟩ := Option.ite_none_right_eq_some.mp hstep
    split at hstep
    · cases hstep
    · rename_i k hk
      split at hstep
      · rename_i hset
        cases hstep
        exact h.goTo_setState hk rfl (by simp) (by simp) (by rw [hset]; simp)
      · rename_i hclear
        cases hstep
        rw [← hk]
        apply h.goTo_same
        apply (h.fits i).move (by rw [hpc]; rfl) (by simp) (by simp) ?_ (by simp)
        intro hquiesced _
        exact absurd hquiesced (h.not_quiesced (by simpa using hclear))
  | spuriousWakeup i =>
    obtain ⟨hpc, hg⟩ := Option.ite_none_right_eq_some.mp hstep
    cases hg
    apply h.goTo_same
    apply (h.fits i).move (by rw [hpc]; rfl) (by simp) ?_ (by simp) (by simp)
    intro hnone
    exact absurd hpc (((h.fits i).unslotted hnone).2 false)
  | leaveWait i =>
    obtain ⟨hpc, hstep⟩ := Option.ite_none_right_eq_some.mp hstep
    split at hstep
    · cases hstep
    · rename_i k hk
      split at hstep
      · rename_i hset
        cases hstep
        rw [← hk]
        apply h.goTo_same
        exact (h.fits i).move (by rw [hpc]; rfl) (by simp) (by rw [hk]; simp) (by simp) (by rw [hset]; simp)
      · rename_i hclear
        cases hstep
        refine h.goTo_setState hk rfl (by simp) (fun hquiesced => ?_) (by simp)
        exact absurd hquiesced (h.not_quiesced (by simpa using hclear))
  | nextTurn i =>
    obtain ⟨hpc, hg⟩ := Option.ite_none_right_eq_some.mp hstep
    cases hg
    apply h.goTo_same
    exact (h.fits i).move (by rw [hpc]; rfl) (by simp) (by simp) (by simp) (by simp)
  | markBlocked i =>
    obtain ⟨-, hg⟩ := Option.ite_none_right_eq_some.mp hstep
    cases hg
    exact h.markBlocked rfl (by simp) (by simp) (by simp) (by simp)
  | unmarkBlocked i =>
    obtain ⟨-, hg⟩ := Option.ite_none_right_eq_some.mp hstep
    cases hg
    exact h.markBlocked rfl (by simp) (by simp) (by simp) (by simp)
  | unregister i =>
    obtain ⟨-, hg⟩ := Option.ite_none_right_eq_some.mp hstep
    cases hg
    exact h.unregister
  | requestQuiesce =>
    obtain ⟨-, hg⟩ := Option.ite_none_right_eq_some.mp hstep
    cases hg
    exact h.request
  | recheck =>
    obtain ⟨hwaiting, hg⟩ := Option.ite_none_right_eq_some.mp hstep
    cases hg
    exact h.evaluate (h.flag.mpr (by rw [hwaiting]; simp))
  | timeout =>
    obtain ⟨hwaiting, hstep⟩ := Option.ite_none_right_eq_some.mp hstep
    split at hstep
    · cases hstep
      exact h.evaluate (h.flag.mpr (by rw [hwaiting]; simp))
    · cases hstep
      exact h.cancel
  | releaseQuiesce =>
    obtain ⟨-, hg⟩ := Option.ite_none_right_eq_some.mp hstep
    cases hg
    exact h.cancel

/-- The invariant holds after every interleaving. -/
theorem Reachable.inv (h : g.Reachable) : g.Inv :=
  Run.invariant h inv_start fun hinv _ hstep => hinv.step hstep

/-- Without a pending request, a participant that waits is woken up and leaves its wait. -/
theorem Inv.leaves (h : g.Inv) (hclear : g.gate.quiesceRequested = false) {woken : Bool}
    (hpc : (g.participants i).pc = .waiting woken) :
    ∃ g', g.step (.leaveWait i) = some g' ∧ (g'.participants i).pc = .body := by
  cases woken with
  | false => exact absurd hpc ((h.fits i).woken hclear)
  | true =>
    cases hslot : (g.participants i).slot with
    | none => exact absurd hpc (((h.fits i).unslotted hslot).2 true)
    | some k =>
      refine ⟨g.goTo i (g.gate.setState k .running) .body (some k), ?_, by simp⟩
      simp only [GateSystem.step]
      rw [if_pos hpc, hslot]
      simp [hclear]

/-- A registration is refused only while every slot is in use. -/
theorem step_register_full (hstep : g.step (.register i) = some g')
    (hfull : (g'.participants i).slot = none) (k : Fin forkGateMaxParticipants) :
    (g.gate.slots k).inUse = true := by
  obtain ⟨-, hg⟩ := Option.ite_none_right_eq_some.mp hstep
  cases hg
  rw [goTo_participants_self] at hfull
  exact (ForkGate.register_full hfull).2 k

end GateSystem

/-! ## Quiescence -/

/-- After every interleaving of any number of threads and rounds: while the gate is quiesced no
thread whose registration got a slot is in its loop body; while no request is pending every
waiting thread can leave its wait; and a registration is refused only while all slots are in use. -/
theorem forkGate_quiescence {ι : Type*} [DecidableEq ι] (g : GateSystem ι) (h : g.Reachable) :
    (g.requester = .quiesced → ∀ i, (g.participants i).slot ≠ none → (g.participants i).pc ≠ .body) ∧
      (g.gate.quiesceRequested = false → ∀ i woken, (g.participants i).pc = .waiting woken →
        ∃ g', g.step (.leaveWait i) = some g' ∧ (g'.participants i).pc = .body) ∧
      ∀ i g', g.step (.register i) = some g' → (g'.participants i).slot = none →
        ∀ k, (g.gate.slots k).inUse = true := by
  have hinv := h.inv
  refine ⟨?_, ?_, ?_⟩
  · intro hquiesced i hslot
    exact (hinv.fits i).quiet hquiesced hslot
  · intro hclear i woken hpc
    exact hinv.leaves hclear hpc
  · intro i g' hstep hfull k
    exact GateSystem.step_register_full hstep hfull k

namespace GateSystem

/-- Two threads: the first is in its bracket and the second parks before the request is met; then the
first leaves its bracket, and its checkpoint sees the request. -/
def bracketAndPark : List (GateStep (Fin 2)) :=
  [.register 0, .register 1, .fastRead 0, .markBlocked 0, .requestQuiesce, .fastRead 1, .lockedRead 1, .recheck,
    .unmarkBlocked 0, .fastRead 0]

/-- Eight threads take the slots and enter their brackets, the ninth is refused and runs on. -/
def nineThreads : List (GateStep (Fin 9)) :=
  (List.finRange 9).map .register ++
    ((List.finRange 9).filter (· ≠ 8)).flatMap (fun i => [.fastRead i, .markBlocked i]) ++
    [.fastRead 8, .requestQuiesce]

end GateSystem

/-- The gate is quiesced, and neither of the two threads runs its body. -/
theorem forkGate_quiescence_bracket : ∃ g : GateSystem (Fin 2), g.Reachable ∧ g.requester = .quiesced ∧
    (∀ i, (g.participants i).slot ≠ none) ∧ ∀ i, (g.participants i).pc ≠ .body := by
  have hrun : ((Run.exec GateSystem.step .start GateSystem.bracketAndPark).map fun g =>
      (g.requester, (g.participants 0).slot.isSome, (g.participants 1).slot.isSome)) =
      some (.quiesced, true, true) := by decide +kernel
  obtain ⟨g, hexec, hg⟩ := Option.map_eq_some_iff.mp hrun
  simp only [Prod.mk.injEq] at hg
  obtain ⟨hquiesced, h0, h1⟩ := hg
  have hreach : g.Reachable := Run.of_exec (fun _ _ _ => trivial) hexec
  have hslots : ∀ i, (g.participants i).slot ≠ none :=
    Fin.forall_fin_two.mpr ⟨Option.ne_none_iff_isSome.mpr h0, Option.ne_none_iff_isSome.mpr h1⟩
  exact ⟨g, hreach, hquiesced, hslots, fun i => (forkGate_quiescence g hreach).1 hquiesced i (hslots i)⟩

/-- A ninth thread runs its body while the gate is quiesced. -/
theorem forkGate_ninth : ∃ g : GateSystem (Fin 9), g.Reachable ∧ g.requester = .quiesced ∧
    ∃ i, (g.participants i).pc = .body := by
  have hrun : ((Run.exec GateSystem.step .start GateSystem.nineThreads).map fun g =>
      (g.requester, g.participants 8)) = some (.quiesced, ⟨.body, none⟩) := by decide +kernel
  obtain ⟨g, hexec, hg⟩ := Option.map_eq_some_iff.mp hrun
  rw [Prod.mk.injEq] at hg
  exact ⟨g, Run.of_exec (fun _ _ _ => trivial) hexec, hg.1, 8, by rw [hg.2]⟩
