-- SUMMARY: The forks of a batch: when the loop that creates them ends, and what the slots then hold.
import Mathlib.Data.List.Basic
import Mathlib.Data.Nat.Find
import Mathlib.Tactic.Common

/-!
# Spawning forks

`orchestrator_spawn_forks` fills the slots of the children one after the other. Each turn of its loop meets
a request to stop, a quiescence that is refused, a fork that fails, or a new child, which may already be
dead when it is asked for its status. Children are also reaped by the handler of SIGCHLD, at any time.
A child is known here by the turn that created it: its pid may be given out again once it is reaped.
-/

/-! ## The loop -/

/-- What a turn finds: a refused quiescence, a fork that fails, or a child with its pid and, if `waitpid`
reaps it at once, its status. -/
inductive SpawnOutcome where
  | notQuiesced
  | forkFailed
  | created (pid : { pid : Int // 0 < pid }) (wait : Option Int)

/-- A turn: whether a stop is requested, what it finds, and the children that the handler of SIGCHLD reaps
in the meantime. -/
structure SpawnTurn where
  stop : Bool
  outcome : SpawnOutcome
  handler : List Nat

/-- A cell of `childrens_pid`, and the child that the pid was given to. -/
structure ForkSlot where
  pid : Int
  child : Option Nat

/-- The variables of the loop, the cells it writes and the children reaped so far. -/
structure SpawnForks where
  c : Nat
  forkError : Nat
  broken : Bool
  childrensPid : List ForkSlot
  forkId : List String
  reaped : List Nat

namespace SpawnForks

/-- A refused quiescence or a fork that failed; the tenth breaks the loop. -/
def refuse (s : SpawnForks) : SpawnForks :=
  let s := { s with forkError := s.forkError + 1, childrensPid := s.childrensPid.set s.c ⟨-1, none⟩ }
  if s.forkError ≥ 10 then { s with broken := true } else { s with c := s.c + 1 }

/-- A child is entered in its slot, and asked for its status. -/
def enter (s : SpawnForks) (k : Nat) (pid : Int) (wait : Option Int) : SpawnForks :=
  let s := { s with
    forkId := s.forkId.set s.c ("etii_fork." ++ toString pid)
    childrensPid := s.childrensPid.set s.c ⟨pid, some k⟩
    reaped := if wait.isSome then k :: s.reaped else s.reaped }
  -- c-- and then the c++ of the loop
  if wait.getD 0 ≠ 0 then s else { s with c := s.c + 1 }

/-- The body of the loop at its turn `k`. -/
def turn (s : SpawnForks) (k : Nat) (t : SpawnTurn) : SpawnForks :=
  let s := { s with reaped := t.handler ++ s.reaped }
  match t.outcome with
  | .notQuiesced => s.refuse
  | .forkFailed => s.refuse
  | .created pid wait => s.enter k pid wait

/-- The loop from its turn `k`, and the number of turns it makes in all. -/
def loop (turns : Nat → SpawnTurn) : Nat → Nat → SpawnForks → Option (Nat × SpawnForks)
  | 0, _, _ => none
  | fuel + 1, k, s =>
    if s.broken ∨ s.childrensPid.length ≤ s.c ∨ (turns k).stop then
      some (k, { s with reaped := (turns k).handler ++ s.reaped })
    else loop turns fuel (k + 1) (s.turn k (turns k))

/-- `count_created_forks`. -/
def countCreatedForks (slots : List ForkSlot) : Nat := slots.countP fun slot => 0 < slot.pid

/-- The variables when the loop begins. -/
def start (slots : List ForkSlot) (forkId : List String) : SpawnForks := ⟨0, 0, false, slots, forkId, []⟩

end SpawnForks

/-- What the call leaves: the slots, the children reaped, and the count it returns. -/
structure SpawnResult where
  childrensPid : List ForkSlot
  reaped : List Nat
  created : Nat

/-- `orchestrator_spawn_forks` in the parent. -/
def orchestratorSpawnForks (turns : Nat → SpawnTurn) (slots : List ForkSlot) (forkId : List String) (fuel : Nat) :
    Option SpawnResult :=
  (SpawnForks.loop turns fuel 0 (.start slots forkId)).map fun (_, s) =>
    ⟨s.childrensPid, s.reaped, SpawnForks.countCreatedForks s.childrensPid⟩

/-! ## Turns -/

/-- The pid of the child of a turn. -/
def SpawnOutcome.pid? : SpawnOutcome → Option Int
  | .created pid _ => some pid
  | _ => none

/-- No child comes of the turn. -/
def SpawnOutcome.fails : SpawnOutcome → Bool
  | .created _ _ => false
  | _ => true

/-- The child of the turn is found dead with a status other than 0: its slot is tried again. -/
def SpawnOutcome.stalls : SpawnOutcome → Bool
  | .created _ wait => wait.getD 0 ≠ 0
  | _ => false

/-- `waitpid` reaps the child of the turn. -/
def SpawnOutcome.waited : SpawnOutcome → Bool
  | .created _ wait => wait.isSome
  | _ => false

section Turns

variable (turns : Nat → SpawnTurn)

/-- How many of the first `k` turns go on to the next slot. -/
def advances (k : Nat) : Nat := (List.range k).countP fun i => !(turns i).outcome.stalls

/-- How many of the first `k` turns fail. -/
def failures (k : Nat) : Nat := (List.range k).countP fun i => (turns i).outcome.fails

/-- At turn `k` a stop is requested, all slots have been filled, or ten turns have failed. -/
def EndsAt (nbThreads k : Nat) : Prop := (turns k).stop = true ∨ nbThreads ≤ advances turns k ∨ 10 ≤ failures turns k

/-- `k` is the first turn at which the loop has a reason to end. -/
def FirstEnd (nbThreads k : Nat) : Prop := EndsAt turns nbThreads k ∧ ∀ i < k, ¬ EndsAt turns nbThreads i

/-- The child of turn `j` is still in its slot after `k` turns: it was not found dead, or not tried again. -/
def ChildKept (k j : Nat) : Prop :=
  j < k ∧ (turns j).outcome.fails = false ∧ ((turns j).outcome.stalls = false ∨ j + 1 = k)

/-- The child of turn `j` is reaped by its own `waitpid` or by the handler, up to turn `k`. -/
def ReapedBy (k j : Nat) : Prop := (turns j).outcome.waited = true ∨ ∃ i ≤ k, j ∈ (turns i).handler

theorem advances_succ (k : Nat) : advances turns (k + 1) = advances turns k + if (turns k).outcome.stalls then 0 else 1 := by
  rw [advances, List.range_succ, List.countP_append, List.countP_singleton]
  cases (turns k).outcome.stalls <;> rfl

theorem advances_le (k : Nat) : advances turns k ≤ k := by
  have hle := List.countP_le_length (p := fun i => !(turns i).outcome.stalls) (l := List.range k)
  rwa [List.length_range] at hle

theorem failures_le (k : Nat) : failures turns k ≤ k := by
  have hle := List.countP_le_length (p := fun i => (turns i).outcome.fails) (l := List.range k)
  rwa [List.length_range] at hle

theorem failures_succ (k : Nat) : failures turns (k + 1) = failures turns k + if (turns k).outcome.fails then 1 else 0 := by
  rw [failures, List.range_succ, List.countP_append, List.countP_singleton]
  rfl

end Turns

/-- A slot holds the pid of a child of the call that has not been reaped. -/
def ForkSlot.live (turns : Nat → SpawnTurn) (reaped : List Nat) (slot : ForkSlot) : Bool :=
  slot.child.any fun j => (turns j).outcome.pid? = some slot.pid ∧ j ∉ reaped

/-- Each slot holds the pid of a child that has not been reaped, or no pid, and those that hold one are counted. -/
def SpawnResult.Right (turns : Nat → SpawnTurn) (r : SpawnResult) : Prop :=
  (∀ slot ∈ r.childrensPid, slot.live turns r.reaped = true ∨ slot.pid ≤ 0) ∧
    r.created = r.childrensPid.countP (ForkSlot.live turns r.reaped)

/-! ## What the loop keeps -/

namespace SpawnForks

variable {turns : Nat → SpawnTurn} {nbThreads k j i : Nat} {s : SpawnForks} {slot : ForkSlot}

/-- The slot `i` holds the pid of the child of turn `j`: either the loop is past the slot, or it is about to
try it again. -/
def Holds (turns : Nat → SpawnTurn) (k c i j : Nat) (slot : ForkSlot) : Prop :=
  j < k ∧ (turns j).outcome.pid? = some slot.pid ∧ (i < c ∧ (turns j).outcome.stalls = false ∨ i = c ∧ (turns j).outcome.stalls = true ∧ j + 1 = k)

/-- The loop before its turn `k`. -/
structure Inv (turns : Nat → SpawnTurn) (nbThreads k : Nat) (s : SpawnForks) : Prop where
  length : s.childrensPid.length = nbThreads
  c_eq : s.broken = false → s.c = advances turns k
  forkError_eq : s.forkError = failures turns k
  broken_iff : s.broken = true ↔ 10 ≤ failures turns k
  empty : ∀ (i : Nat) (slot : ForkSlot), s.childrensPid[i]? = some slot → slot.child = none → slot.pid ≤ 0
  full : ∀ (i : Nat) (slot : ForkSlot) (j : Nat), s.childrensPid[i]? = some slot → slot.child = some j → Holds turns k s.c i j slot
  kept : ∀ j, ChildKept turns k j → ∃ (i : Nat) (slot : ForkSlot), s.childrensPid[i]? = some slot ∧ slot.child = some j
  reaped_iff : ∀ j, j ∈ s.reaped ↔ (j < k ∧ (turns j).outcome.waited = true) ∨ ∃ i < k, j ∈ (turns i).handler

theorem inv_start {slots : List ForkSlot} (h : ∀ slot ∈ slots, slot.pid ≤ 0 ∧ slot.child = none) (forkId : List String) :
    Inv turns slots.length 0 (start slots forkId) where
  length := rfl
  c_eq _ := rfl
  forkError_eq := rfl
  broken_iff := iff_of_false nofun (Nat.not_succ_le_zero 9)
  empty i slot hslot _ := (h slot (List.mem_of_getElem? hslot)).1
  full i slot j hslot hchild := by
    rw [(h slot (List.mem_of_getElem? hslot)).2] at hchild
    cases hchild
  kept j hkept := absurd hkept.1 (Nat.not_lt_zero j)
  reaped_iff j := by simp [start]

theorem Inv.getElem?_set_self (h : Inv turns nbThreads k s) (hroom : s.c < nbThreads) (new : ForkSlot) :
    (s.childrensPid.set s.c new)[s.c]? = some new := List.getElem?_set_self (by rwa [h.length])

/-- A slot without a child holds no process when the loop writes the next one. -/
theorem Inv.empty_set (h : Inv turns nbThreads k s) (hroom : s.c < nbThreads) (new : ForkSlot)
    (hnew : new.child = none → new.pid ≤ 0) :
    ∀ (i : Nat) (slot : ForkSlot), (s.childrensPid.set s.c new)[i]? = some slot → slot.child = none → slot.pid ≤ 0 := by
  intro i slot hslot hchild
  by_cases hi : i = s.c
  · subst hi
    cases Option.some.inj ((h.getElem?_set_self hroom _).symm.trans hslot)
    exact hnew hchild
  · exact h.empty i slot ((List.getElem?_set_ne (Ne.symm hi)).symm.trans hslot) hchild

/-- A child that was not tried again stays in its slot when the loop writes the next one. -/
theorem Inv.kept_set (h : Inv turns nbThreads k s) (hj : j < k) (hfork : (turns j).outcome.fails = false)
    (hsettled : (turns j).outcome.stalls = false) (new : ForkSlot) :
    ∃ (i : Nat) (slot : ForkSlot), (s.childrensPid.set s.c new)[i]? = some slot ∧ slot.child = some j := by
  obtain ⟨i, slot, hslot, hchild⟩ := h.kept j ⟨hj, hfork, .inl hsettled⟩
  obtain ⟨-, -, ⟨hlt, -⟩ | ⟨-, hstalls, -⟩⟩ := h.full i slot j hslot hchild
  · exact ⟨i, slot, (List.getElem?_set_ne (Nat.ne_of_gt hlt)).trans hslot, hchild⟩
  · rw [hsettled] at hstalls
    cases hstalls

/-- A child in a slot that the loop does not write is past it. -/
theorem Inv.full_set (h : Inv turns nbThreads k s) (hi : i ≠ s.c) {new : ForkSlot}
    (hslot : (s.childrensPid.set s.c new)[i]? = some slot) (hchild : slot.child = some j) {c : Nat} (hc : s.c ≤ c) :
    Holds turns (k + 1) c i j slot := by
  rw [List.getElem?_set_ne (Ne.symm hi)] at hslot
  obtain ⟨hj, hpid, ⟨hlt, hsettled⟩ | ⟨rfl, -⟩⟩ := h.full i slot j hslot hchild
  · exact ⟨Nat.lt_succ_of_lt hj, hpid, .inl ⟨Nat.lt_of_lt_of_le hlt hc, hsettled⟩⟩
  · exact absurd rfl hi

/-- The children reaped with those of one more turn. -/
theorem Inv.reaped_succ (h : Inv turns nbThreads k s) (reaped : List Nat)
    (hreaped : ∀ j, j ∈ reaped ↔ (j = k ∧ (turns k).outcome.waited = true) ∨ j ∈ (turns k).handler ∨ j ∈ s.reaped) :
    ∀ j, j ∈ reaped ↔ (j < k + 1 ∧ (turns j).outcome.waited = true) ∨ ∃ i < k + 1, j ∈ (turns i).handler := by
  intro j
  rw [hreaped, h.reaped_iff]
  constructor
  · rintro (⟨rfl, hwaited⟩ | hhandler | ⟨hlt, hwaited⟩ | ⟨i, hi, hhandler⟩)
    · exact .inl ⟨Nat.lt_succ_self j, hwaited⟩
    · exact .inr ⟨k, Nat.lt_succ_self k, hhandler⟩
    · exact .inl ⟨Nat.lt_succ_of_lt hlt, hwaited⟩
    · exact .inr ⟨i, Nat.lt_succ_of_lt hi, hhandler⟩
  · rintro (⟨hlt, hwaited⟩ | ⟨i, hi, hhandler⟩)
    · rcases Nat.lt_succ_iff_lt_or_eq.mp hlt with hlt | rfl
      · exact .inr (.inr (.inl ⟨hlt, hwaited⟩))
      · exact .inl ⟨rfl, hwaited⟩
    · rcases Nat.lt_succ_iff_lt_or_eq.mp hi with hi | rfl
      · exact .inr (.inr (.inr ⟨i, hi, hhandler⟩))
      · exact .inr (.inl hhandler)

/-- A turn without a child. -/
theorem Inv.refuse (h : Inv turns nbThreads k s) (hgo : s.broken = false) (hroom : s.c < nbThreads)
    (hfails : (turns k).outcome.fails = true) (hstalls : (turns k).outcome.stalls = false)
    (hwaited : (turns k).outcome.waited = false) :
    Inv turns nbThreads (k + 1) ({ s with reaped := (turns k).handler ++ s.reaped } : SpawnForks).refuse := by
  have hfailures : failures turns (k + 1) = s.forkError + 1 := by rw [failures_succ, hfails, h.forkError_eq, if_pos rfl]
  have hadvances : advances turns (k + 1) = s.c + 1 := by rw [advances_succ, hstalls, h.c_eq hgo]; rfl
  have hreaped := h.reaped_succ ((turns k).handler ++ s.reaped) fun j => by simp [hwaited]
  have hempty := h.empty_set hroom ⟨-1, none⟩ fun _ => by decide
  have hfull : ∀ (i : Nat) (slot : ForkSlot) (j c : Nat), (s.childrensPid.set s.c ⟨-1, none⟩)[i]? = some slot →
      slot.child = some j → s.c ≤ c → Holds turns (k + 1) c i j slot := by
    intro i slot j c hslot hchild hc
    by_cases hi : i = s.c
    · subst hi
      cases Option.some.inj ((h.getElem?_set_self hroom _).symm.trans hslot)
      cases hchild
    · exact h.full_set hi hslot hchild hc
  have hkept : ∀ j, ChildKept turns (k + 1) j →
      ∃ (i : Nat) (slot : ForkSlot), (s.childrensPid.set s.c ⟨-1, none⟩)[i]? = some slot ∧ slot.child = some j := by
    rintro j ⟨hj, hfork, hsettled⟩
    rcases Nat.lt_succ_iff_lt_or_eq.mp hj with hj | rfl
    · exact h.kept_set hj hfork (hsettled.resolve_right (by omega)) _
    · rw [hfails] at hfork
      cases hfork
  unfold SpawnForks.refuse
  dsimp only
  by_cases hten : s.forkError + 1 ≥ 10
  · rw [if_pos hten]
    exact ⟨List.length_set.trans h.length, nofun, hfailures.symm, iff_of_true rfl (by omega), hempty,
      fun i slot j hslot hchild => hfull i slot j _ hslot hchild (Nat.le_refl _), hkept, hreaped⟩
  · rw [if_neg hten]
    refine ⟨List.length_set.trans h.length, fun _ => hadvances.symm, hfailures.symm, iff_of_false ?_ (by omega), hempty,
      fun i slot j hslot hchild => hfull i slot j _ hslot hchild (Nat.le_succ _), hkept, hreaped⟩
    show ¬ s.broken = true
    rw [hgo]
    nofun

/-- A turn with a child. -/
theorem Inv.enter {pid : { pid : Int // 0 < pid }} {wait : Option Int} (h : Inv turns nbThreads k s)
    (hgo : s.broken = false) (hroom : s.c < nbThreads) (houtcome : (turns k).outcome = .created pid wait) :
    Inv turns nbThreads (k + 1) (({ s with reaped := (turns k).handler ++ s.reaped } : SpawnForks).enter k pid wait) := by
  have hfork : (turns k).outcome.fails = false := by rw [houtcome]; rfl
  have hpid : (turns k).outcome.pid? = some pid.val := by rw [houtcome]; rfl
  have hwaited : (turns k).outcome.waited = wait.isSome := by rw [houtcome]; rfl
  have hstalls : (turns k).outcome.stalls = decide (wait.getD 0 ≠ 0) := by rw [houtcome]; rfl
  have hfailures : failures turns (k + 1) = failures turns k := by rw [failures_succ, hfork]; rfl
  have hreaped := h.reaped_succ
    (if wait.isSome then k :: ((turns k).handler ++ s.reaped) else (turns k).handler ++ s.reaped) fun j => by
      rw [hwaited]
      split <;> simp [*]
  have hbroken : s.broken = true ↔ 10 ≤ failures turns (k + 1) := by rw [hfailures]; exact h.broken_iff
  have hempty := h.empty_set hroom ⟨pid, some k⟩ nofun
  have hfull : ∀ (i : Nat) (slot : ForkSlot) (j c : Nat), (s.childrensPid.set s.c ⟨pid, some k⟩)[i]? = some slot →
      slot.child = some j → s.c ≤ c →
      (s.c < c ∧ (turns k).outcome.stalls = false ∨ s.c = c ∧ (turns k).outcome.stalls = true) →
      Holds turns (k + 1) c i j slot := by
    intro i slot j c hslot hchild hc hturn
    by_cases hi : i = s.c
    · subst hi
      cases Option.some.inj ((h.getElem?_set_self hroom _).symm.trans hslot)
      cases hchild
      refine ⟨Nat.lt_succ_self _, hpid, ?_⟩
      rcases hturn with hadvance | ⟨hsame, hstall⟩
      · exact .inl hadvance
      · exact .inr ⟨hsame, hstall, rfl⟩
    · exact h.full_set hi hslot hchild hc
  have hkept : ∀ j, ChildKept turns (k + 1) j →
      ∃ (i : Nat) (slot : ForkSlot), (s.childrensPid.set s.c ⟨pid, some k⟩)[i]? = some slot ∧ slot.child = some j := by
    rintro j ⟨hj, hforked, hsettled⟩
    rcases Nat.lt_succ_iff_lt_or_eq.mp hj with hj | rfl
    · exact h.kept_set hj hforked (hsettled.resolve_right (by omega)) _
    · exact ⟨s.c, _, h.getElem?_set_self hroom _, rfl⟩
  unfold SpawnForks.enter
  dsimp only
  by_cases hdead : wait.getD 0 ≠ 0
  · rw [if_pos hdead]
    have hstall : (turns k).outcome.stalls = true := by rw [hstalls, decide_eq_true hdead]
    refine ⟨List.length_set.trans h.length, fun hgo' => ?_, h.forkError_eq.trans hfailures.symm, hbroken, hempty, ?_, hkept,
      hreaped⟩
    · show s.c = _
      rw [advances_succ, hstall, h.c_eq hgo]
      rfl
    · exact fun i slot j hslot hchild => hfull i slot j _ hslot hchild (Nat.le_refl _) (.inr ⟨rfl, hstall⟩)
  · rw [if_neg hdead]
    have hadvance : (turns k).outcome.stalls = false := by rw [hstalls, decide_eq_false hdead]
    refine ⟨List.length_set.trans h.length, fun hgo' => ?_, h.forkError_eq.trans hfailures.symm, hbroken, hempty, ?_, hkept,
      hreaped⟩
    · show s.c + 1 = _
      rw [advances_succ, hadvance, h.c_eq hgo]
      rfl
    · exact fun i slot j hslot hchild => hfull i slot j _ hslot hchild (Nat.le_succ _) (.inl ⟨Nat.lt_succ_self _, hadvance⟩)

/-- One turn of the loop. -/
theorem Inv.turn (h : Inv turns nbThreads k s) (hgo : s.broken = false) (hroom : s.c < nbThreads) :
    Inv turns nbThreads (k + 1) (s.turn k (turns k)) := by
  unfold SpawnForks.turn
  cases houtcome : (turns k).outcome with
  | notQuiesced => exact h.refuse hgo hroom (by rw [houtcome]; rfl) (by rw [houtcome]; rfl) (by rw [houtcome]; rfl)
  | forkFailed => exact h.refuse hgo hroom (by rw [houtcome]; rfl) (by rw [houtcome]; rfl) (by rw [houtcome]; rfl)
  | created pid wait => exact h.enter hgo hroom houtcome

/-! ## The end of the loop -/

theorem Inv.ends_iff (h : Inv turns nbThreads k s) :
    (s.broken = true ∨ s.childrensPid.length ≤ s.c ∨ (turns k).stop = true) ↔ EndsAt turns nbThreads k := by
  rw [EndsAt, ← h.broken_iff, h.length]
  cases hbroken : s.broken with
  | true => simp
  | false =>
    rw [h.c_eq hbroken]
    simp [or_comm]

/-- Where the loop ends, and what it has kept until then. -/
theorem Inv.loop {fuel K : Nat} {s' : SpawnForks} (h : Inv turns nbThreads k s)
    (hbefore : ∀ i < k, ¬ EndsAt turns nbThreads i) (hloop : SpawnForks.loop turns fuel k s = some (K, s')) :
    FirstEnd turns nbThreads K ∧ ∃ t, Inv turns nbThreads K t ∧ s' = { t with reaped := (turns K).handler ++ t.reaped } := by
  induction fuel generalizing k s with
  | zero => cases hloop
  | succ fuel ih =>
    rw [SpawnForks.loop] at hloop
    by_cases hends : s.broken = true ∨ s.childrensPid.length ≤ s.c ∨ (turns k).stop = true
    · rw [if_pos hends] at hloop
      cases hloop
      exact ⟨⟨h.ends_iff.mp hends, hbefore⟩, s, h, rfl⟩
    · rw [if_neg hends] at hloop
      have hgo : s.broken = false := by simpa using fun hbroken => hends (.inl hbroken)
      have hroom : s.c < nbThreads := by
        rw [← h.length]
        exact Nat.lt_of_not_le fun hle => hends (.inr (.inl hle))
      refine ih (h.turn hgo hroom) (fun i hi => ?_) hloop
      rcases Nat.lt_succ_iff_lt_or_eq.mp hi with hi | rfl
      · exact hbefore i hi
      · exact mt h.ends_iff.mpr hends

/-- The loop ends when there is a turn at which it has a reason to. -/
theorem Inv.loop_ends {K : Nat} (fuel : Nat) (h : Inv turns nbThreads k s) (hends : EndsAt turns nbThreads K) (hk : k ≤ K)
    (hfuel : K < k + fuel) : (SpawnForks.loop turns fuel k s).isSome = true := by
  induction fuel generalizing k s with
  | zero => omega
  | succ fuel ih =>
    rw [SpawnForks.loop]
    by_cases hnow : s.broken = true ∨ s.childrensPid.length ≤ s.c ∨ (turns k).stop = true
    · rw [if_pos hnow]
      rfl
    · rw [if_neg hnow]
      have hgo : s.broken = false := by simpa using fun hbroken => hnow (.inl hbroken)
      have hroom : s.c < nbThreads := by
        rw [← h.length]
        exact Nat.lt_of_not_le fun hle => hnow (.inr (.inl hle))
      have hne : k ≠ K := by
        rintro rfl
        exact hnow (h.ends_iff.mpr hends)
      exact ih (h.turn hgo hroom) (by omega) (by omega)

/-- What is reaped when the loop ends, of the children it has created. -/
theorem Inv.reaped_end (h : Inv turns nbThreads k s) (hj : j < k) :
    j ∈ (turns k).handler ++ s.reaped ↔ ReapedBy turns k j := by
  rw [List.mem_append, h.reaped_iff, ReapedBy]
  constructor
  · rintro (hhandler | ⟨-, hwaited⟩ | ⟨i, hi, hhandler⟩)
    · exact .inr ⟨k, Nat.le_refl k, hhandler⟩
    · exact .inl hwaited
    · exact .inr ⟨i, Nat.le_of_lt hi, hhandler⟩
  · rintro (hwaited | ⟨i, hi, hhandler⟩)
    · exact .inr (.inl ⟨hj, hwaited⟩)
    · rcases Nat.lt_or_eq_of_le hi with hi | rfl
      · exact .inr (.inr ⟨i, hi, hhandler⟩)
      · exact .inl hhandler

/-- A pid in a slot is that of a child that the loop has kept. -/
theorem Inv.kept_of_child (h : Inv turns nbThreads k s) (hslot : s.childrensPid[i]? = some slot)
    (hchild : slot.child = some j) : ChildKept turns k j ∧ (turns j).outcome.pid? = some slot.pid := by
  obtain ⟨hj, hpid, hplace⟩ := h.full i slot j hslot hchild
  have hfork : (turns j).outcome.fails = false := by
    cases houtcome : (turns j).outcome with
    | created pid wait => rfl
    | notQuiesced =>
      rw [houtcome] at hpid
      cases hpid
    | forkFailed =>
      rw [houtcome] at hpid
      cases hpid
  rcases hplace with ⟨-, hsettled⟩ | ⟨-, -, hlast⟩
  · exact ⟨⟨hj, hfork, .inl hsettled⟩, hpid⟩
  · exact ⟨⟨hj, hfork, .inr hlast⟩, hpid⟩

end SpawnForks

theorem SpawnOutcome.pos_of_pid? {o : SpawnOutcome} {pid : Int} (h : o.pid? = some pid) : 0 < pid := by
  cases o with
  | created p wait =>
    cases Option.some.inj h
    exact p.property
  | _ => cases h

namespace SpawnForks

variable {turns : Nat → SpawnTurn} {nbThreads k : Nat} {s : SpawnForks}

/-- What the call leaves is right exactly when no child that is kept has been reaped. -/
theorem Inv.right_iff (h : Inv turns nbThreads k s) :
    SpawnResult.Right turns ⟨s.childrensPid, (turns k).handler ++ s.reaped, countCreatedForks s.childrensPid⟩ ↔
      ∀ j, ChildKept turns k j → ¬ ReapedBy turns k j := by
  constructor
  · rintro ⟨hslots, -⟩ j hkept hreaped
    obtain ⟨i, slot, hslot, hchild⟩ := h.kept j hkept
    obtain ⟨-, hpid⟩ := h.kept_of_child hslot hchild
    rcases hslots slot (List.mem_of_getElem? hslot) with hlive | hnone
    · rw [ForkSlot.live, hchild, Option.any_some, decide_eq_true_eq] at hlive
      exact hlive.2 ((h.reaped_end hkept.1).mpr hreaped)
    · exact absurd hnone (Int.not_le.mpr (SpawnOutcome.pos_of_pid? hpid))
  · intro hall
    have hlive : ∀ slot ∈ s.childrensPid,
        slot.live turns ((turns k).handler ++ s.reaped) = decide (0 < slot.pid) := by
      intro slot hmem
      obtain ⟨i, hslot⟩ := List.getElem?_of_mem hmem
      cases hchild : slot.child with
      | none =>
        rw [ForkSlot.live, hchild, decide_eq_false (Int.not_lt.mpr (h.empty i slot hslot hchild))]
        rfl
      | some j =>
        obtain ⟨hkept, hpid⟩ := h.kept_of_child hslot hchild
        have hnot : j ∉ (turns k).handler ++ s.reaped := mt (h.reaped_end hkept.1).mp (hall j hkept)
        rw [ForkSlot.live, hchild, Option.any_some, decide_eq_true (SpawnOutcome.pos_of_pid? hpid)]
        exact decide_eq_true ⟨hpid, hnot⟩
    refine ⟨fun slot hmem => ?_, ?_⟩
    · rw [hlive slot hmem, decide_eq_true_eq]
      exact Int.lt_or_le 0 slot.pid
    · exact List.countP_congr fun slot hmem => by rw [hlive slot hmem]

end SpawnForks

/-- The call returns exactly when at some turn a stop is requested, every slot has been filled or ten turns
have failed; and it then leaves what it should exactly when no child that is kept in its slot has been
reaped until that turn. -/
theorem orchestratorSpawnForks_right_iff (turns : Nat → SpawnTurn) (slots : List ForkSlot) (forkId : List String)
    (hempty : ∀ slot ∈ slots, slot.pid ≤ 0 ∧ slot.child = none) :
    ((∃ fuel r, orchestratorSpawnForks turns slots forkId fuel = some r) ↔ ∃ k, EndsAt turns slots.length k) ∧
    ((∃ fuel r, orchestratorSpawnForks turns slots forkId fuel = some r ∧ r.Right turns) ↔
      ∃ k, FirstEnd turns slots.length k ∧ ∀ j, ChildKept turns k j → ¬ ReapedBy turns k j) := by
  have hstart : SpawnForks.Inv turns slots.length 0 (SpawnForks.start slots forkId) :=
    SpawnForks.inv_start hempty forkId
  have hresult : ∀ fuel r, orchestratorSpawnForks turns slots forkId fuel = some r →
      ∃ k, FirstEnd turns slots.length k ∧ (r.Right turns ↔ ∀ j, ChildKept turns k j → ¬ ReapedBy turns k j) := by
    intro fuel r hr
    obtain ⟨⟨k, s⟩, hloop, rfl⟩ := Option.map_eq_some_iff.mp hr
    obtain ⟨hfirst, t, ht, rfl⟩ := hstart.loop (fun i hi => absurd hi (Nat.not_lt_zero i)) hloop
    exact ⟨k, hfirst, ht.right_iff⟩
  have hreturns : ∀ k, EndsAt turns slots.length k →
      ∃ r, orchestratorSpawnForks turns slots forkId (k + 1) = some r := by
    intro k hends
    have hsome := hstart.loop_ends (k + 1) hends (Nat.zero_le k) (by omega)
    obtain ⟨out, hout⟩ := Option.isSome_iff_exists.mp hsome
    exact ⟨_, Option.map_eq_some_iff.mpr ⟨out, hout, rfl⟩⟩
  refine ⟨⟨fun ⟨fuel, r, hr⟩ => ?_, fun ⟨k, hends⟩ => ⟨k + 1, hreturns k hends⟩⟩, ?_, ?_⟩
  · obtain ⟨k, hfirst, -⟩ := hresult fuel r hr
    exact ⟨k, hfirst.1⟩
  · rintro ⟨fuel, r, hr, hright⟩
    obtain ⟨k, hfirst, hiff⟩ := hresult fuel r hr
    exact ⟨k, hfirst, hiff.mp hright⟩
  · rintro ⟨k, hfirst, hkept⟩
    obtain ⟨r, hr⟩ := hreturns k hfirst.1
    obtain ⟨k', hfirst', hiff⟩ := hresult (k + 1) r hr
    obtain rfl : k' = k := by
      rcases Nat.lt_trichotomy k' k with hlt | heq | hgt
      · exact absurd hfirst'.1 (hfirst.2 k' hlt)
      · exact heq
      · exact absurd hfirst.1 (hfirst'.2 k hgt)
    exact ⟨k' + 1, r, hr, hiff.mpr hkept⟩

namespace SpawnForks

/-- Every turn creates a child with the same end. -/
def alike (wait : Option Int) (k : Nat) : SpawnTurn := ⟨false, .created ⟨100 + k, by omega⟩ wait, []⟩

/-- Slots without a pid. -/
def noPids (n : Nat) : List ForkSlot := List.replicate n ⟨0, none⟩

end SpawnForks

/-- Two children that live are entered in two slots. -/
theorem orchestratorSpawnForks_right_iff_two : ∃ fuel r,
    orchestratorSpawnForks (SpawnForks.alike none) (SpawnForks.noPids 2) ["", ""] fuel = some r ∧
      r.Right (SpawnForks.alike none) := by
  have hempty : ∀ slot ∈ SpawnForks.noPids 2, slot.pid ≤ 0 ∧ slot.child = none := by decide
  refine (orchestratorSpawnForks_right_iff (SpawnForks.alike none) (SpawnForks.noPids 2) ["", ""] hempty).2.mpr
    ⟨2, ⟨.inr (.inl (by decide)), fun i hi => ?_⟩, fun j _ hreaped => ?_⟩
  · rintro (hstop | hfilled | hfailed)
    · cases hstop
    · have hle : 2 ≤ advances (SpawnForks.alike none) i := hfilled
      have hcount := advances_le (SpawnForks.alike none) i
      omega
    · have hcount := failures_le (SpawnForks.alike none) i
      omega
  · rcases hreaped with hwaited | ⟨i, -, hmem⟩
    · cases hwaited
    · cases hmem

/-- When every child is found dead with an error, its slot is tried for ever; when a child is found dead with
status 0, its pid stays in the slot. -/
theorem orchestratorSpawnForks_dead :
    (∀ fuel, orchestratorSpawnForks (SpawnForks.alike (some 256)) (SpawnForks.noPids 1) [""] fuel = none) ∧
      ∃ r, orchestratorSpawnForks (SpawnForks.alike (some 0)) (SpawnForks.noPids 1) [""] 2 = some r ∧
        ¬ r.Right (SpawnForks.alike (some 0)) := by
  refine ⟨fun fuel => ?_, _, rfl, ?_⟩
  · have hloop : ∀ fuel k s, s.broken = false → s.c = 0 → s.childrensPid.length = 1 →
        SpawnForks.loop (SpawnForks.alike (some 256)) fuel k s = none := by
      intro fuel
      induction fuel with
      | zero => exact fun _ _ _ _ _ => rfl
      | succ fuel ih =>
        intro k s hbroken hc hlength
        have hgoes : ¬ (s.broken = true ∨ s.childrensPid.length ≤ s.c ∨ (SpawnForks.alike (some 256) k).stop = true) := by
          simp [hbroken, hc, hlength, SpawnForks.alike]
        rw [SpawnForks.loop, if_neg hgoes]
        exact ih _ _ hbroken hc (List.length_set.trans hlength)
    exact Option.map_eq_none_iff.mpr (hloop fuel 0 _ rfl rfl rfl)
  · rintro ⟨hslots, -⟩
    rcases hslots _ (List.mem_singleton_self _) with hlive | hnone
    · exact absurd hlive (by decide)
    · exact absurd hnone (by decide)
