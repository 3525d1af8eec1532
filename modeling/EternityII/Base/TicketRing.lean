-- SUMMARY: Slots written by calls that first take a ticket: when a slot holds the value of a call.
import Mathlib.Data.List.Basic
import Mathlib.Logic.Function.Basic
import Mathlib.Tactic.Common

/-!
# Ticket rings

A call takes a ticket, which gives it a slot, and then stores the two halves of its value there, one
after the other. Many calls can be under way, and calls of different tickets can have the same slot.
A call is fresh while no later call of its slot has stored anything: as long as only fresh calls store,
the slot of a fresh call holds what the call has stored.
-/

/-- How much of its value a call has stored. -/
inductive CallStage where
  | taken
  | half
  | written
deriving DecidableEq

/-- A call: its slot, the two halves of its value, and how much of it is stored. -/
structure TicketCall (ι α β : Type*) where
  slot : ι
  first : α
  second : β
  stage : CallStage

/-- The slots, and the calls in the order of their tickets. -/
structure TicketRing (ι α β : Type*) where
  cells : ι → α × β
  calls : List (TicketCall ι α β)

namespace TicketRing

variable {ι α β : Type*} [DecidableEq ι] {r r' : TicketRing ι α β} {i j : Nat} {c d e : TicketCall ι α β} {v : α × β}

/-! ## The operations -/

/-- A call takes the next ticket. -/
def take (r : TicketRing ι α β) (slot : ι) (first : α) (second : β) : TicketRing ι α β :=
  { r with calls := r.calls ++ [⟨slot, first, second, .taken⟩] }

/-- A call writes its slot and moves on. -/
def put (r : TicketRing ι α β) (i : Nat) (e : TicketCall ι α β) (v : α × β) : TicketRing ι α β where
  cells := Function.update r.cells e.slot v
  calls := r.calls.set i e

/-- A call stores the first half of its value. -/
def storeFirst (r : TicketRing ι α β) (i : Nat) (c : TicketCall ι α β) : TicketRing ι α β :=
  r.put i { c with stage := .half } (c.first, (r.cells c.slot).2)

/-- A call stores the second half of its value. -/
def storeSecond (r : TicketRing ι α β) (i : Nat) (c : TicketCall ι α β) : TicketRing ι α β :=
  r.put i { c with stage := .written } ((r.cells c.slot).1, c.second)

/-- The next store of the call with ticket `i`. -/
def store (r : TicketRing ι α β) (i : Nat) : Option (TicketRing ι α β) :=
  (r.calls[i]?).bind fun c =>
    match c.stage with
    | .taken => some (r.storeFirst i c)
    | .half => some (r.storeSecond i c)
    | .written => none

theorem store_cases (h : r.store i = some r') : ∃ c, r.calls[i]? = some c ∧
    (c.stage = .taken ∧ r' = r.storeFirst i c ∨ c.stage = .half ∧ r' = r.storeSecond i c) := by
  obtain ⟨c, hc, hstore⟩ := Option.bind_eq_some_iff.mp h
  refine ⟨c, hc, ?_⟩
  cases hstage : c.stage with
  | taken =>
    rw [hstage] at hstore
    exact .inl ⟨rfl, (Option.some.inj hstore).symm⟩
  | half =>
    rw [hstage] at hstore
    exact .inr ⟨rfl, (Option.some.inj hstore).symm⟩
  | written =>
    rw [hstage] at hstore
    cases hstore

/-! ## Calls that have ended -/

/-- The call with ticket `i` has stored the value `v` in full. -/
def Written (r : TicketRing ι α β) (i : Nat) (v : α × β) : Prop :=
  ∃ c, r.calls[i]? = some c ∧ c.stage = .written ∧ (c.first, c.second) = v

omit [DecidableEq ι] in
theorem Written.unique {w : α × β} (h : r.Written i v) (h' : r.Written i w) : v = w := by
  obtain ⟨c, hc, -, rfl⟩ := h
  obtain ⟨d, hd, -, rfl⟩ := h'
  cases Option.some.inj (hc.symm.trans hd)
  rfl

omit [DecidableEq ι] in
theorem Written.take (h : r.Written i v) (slot : ι) (first : α) (second : β) :
    (r.take slot first second).Written i v := by
  obtain ⟨c, hc, hrest⟩ := h
  have hlt : i < r.calls.length := (List.getElem?_eq_some_iff.mp hc).1
  exact ⟨c, (List.getElem?_append_left hlt).trans hc, hrest⟩

theorem Written.store (h : r.Written i v) (hstore : r.store j = some r') : r'.Written i v := by
  obtain ⟨c, hc, hwritten, hv⟩ := h
  obtain ⟨d, hd, hcases⟩ := store_cases hstore
  have hne : j ≠ i := by
    rintro rfl
    cases Option.some.inj (hc.symm.trans hd)
    rcases hcases with ⟨hstage, -⟩ | ⟨hstage, -⟩ <;> rw [hwritten] at hstage <;> cases hstage
  refine ⟨c, ?_, hwritten, hv⟩
  rcases hcases with ⟨-, rfl⟩ | ⟨-, rfl⟩ <;> exact (List.getElem?_set_ne hne).trans hc

theorem length_store (hstore : r.store i = some r') : r'.calls.length = r.calls.length := by
  obtain ⟨c, -, ⟨-, rfl⟩ | ⟨-, rfl⟩⟩ := store_cases hstore <;> exact List.length_set

/-- A store leaves the slots of the calls as they are. -/
theorem slot_store (hstore : r.store i = some r') (hd : r'.calls[j]? = some d) :
    ∃ c, r.calls[j]? = some c ∧ c.slot = d.slot := by
  obtain ⟨c, hc, hcases⟩ := store_cases hstore
  by_cases heq : i = j
  · subst heq
    have hlt : i < r.calls.length := (List.getElem?_eq_some_iff.mp hc).1
    rcases hcases with ⟨-, rfl⟩ | ⟨-, rfl⟩
    · cases Option.some.inj ((List.getElem?_set_self hlt).symm.trans hd)
      exact ⟨c, hc, rfl⟩
    · cases Option.some.inj ((List.getElem?_set_self hlt).symm.trans hd)
      exact ⟨c, hc, rfl⟩
  · rcases hcases with ⟨-, rfl⟩ | ⟨-, rfl⟩ <;> exact ⟨d, (List.getElem?_set_ne heq).symm.trans hd, rfl⟩

/-! ## What the slots hold -/

/-- No later call of the slot of call `i` has stored anything. -/
def Fresh (r : TicketRing ι α β) (i : Nat) : Prop :=
  ∀ c, r.calls[i]? = some c → ∀ j d, i < j → r.calls[j]? = some d → d.slot = c.slot → d.stage = .taken

/-- The slot of a fresh call holds what the call has stored. -/
def Sound (r : TicketRing ι α β) : Prop :=
  ∀ i c, r.calls[i]? = some c → r.Fresh i →
    (c.stage ≠ .taken → (r.cells c.slot).1 = c.first) ∧ (c.stage = .written → (r.cells c.slot).2 = c.second)

omit [DecidableEq ι] in
theorem sound_empty (cells : ι → α × β) : (⟨cells, []⟩ : TicketRing ι α β).Sound := by
  intro i c hc
  cases hc

omit [DecidableEq ι] in
theorem Sound.take (h : r.Sound) (slot : ι) (first : α) (second : β) : (r.take slot first second).Sound := by
  intro i c hc hfresh
  by_cases hlt : i < r.calls.length
  · have hold : r.calls[i]? = some c := (List.getElem?_append_left hlt).symm.trans hc
    refine h i c hold fun c' hc' j d hij hd hslot => ?_
    have hjlt : j < r.calls.length := (List.getElem?_eq_some_iff.mp hd).1
    refine hfresh c' ?_ j d hij ((List.getElem?_append_left hjlt).trans hd) hslot
    exact (List.getElem?_append_left hlt).trans hc'
  · -- the new call has stored nothing
    have hlen : i < (r.take slot first second).calls.length := (List.getElem?_eq_some_iff.mp hc).1
    rw [TicketRing.take, List.length_append, List.length_singleton] at hlen
    obtain rfl : i = r.calls.length := by omega
    have hnew : (r.take slot first second).calls[r.calls.length]? = some ⟨slot, first, second, .taken⟩ :=
      List.getElem?_concat_length
    cases Option.some.inj (hnew.symm.trans hc)
    exact ⟨fun hne => absurd rfl hne, nofun⟩

/-- Another call is fresh after a store only when it was before. -/
theorem Fresh.of_put (hc : r.calls[i]? = some c) (hslot : e.slot = c.slot) (hstored : e.stage ≠ .taken) (hne : j ≠ i)
    (hj : (r.put i e v).Fresh j) : r.Fresh j := by
  have hlt : i < r.calls.length := (List.getElem?_eq_some_iff.mp hc).1
  intro d hd k b hjk hb hbd
  have hd' : (r.put i e v).calls[j]? = some d := (List.getElem?_set_ne hne.symm).trans hd
  by_cases hki : k = i
  · subst hki
    cases Option.some.inj (hc.symm.trans hb)
    exact absurd (hj d hd' k e hjk (List.getElem?_set_self hlt) (hslot.trans hbd)) hstored
  · exact hj d hd' k b hjk ((List.getElem?_set_ne (Ne.symm hki)).trans hb) hbd

/-- When a fresh call stores, no other call that has stored anything stays fresh on its slot. -/
theorem Fresh.slot_ne (hc : r.calls[i]? = some c) (hi : r.Fresh i) (hslot : e.slot = c.slot) (hstored : e.stage ≠ .taken)
    (hne : j ≠ i) (hd : r.calls[j]? = some d) (hdstored : d.stage ≠ .taken) (hj : (r.put i e v).Fresh j) :
    d.slot ≠ e.slot := by
  have hlt : i < r.calls.length := (List.getElem?_eq_some_iff.mp hc).1
  intro heq
  rcases Nat.lt_or_gt_of_ne hne with hbefore | hafter
  · have hd' : (r.put i e v).calls[j]? = some d := (List.getElem?_set_ne hne.symm).trans hd
    exact hstored (hj d hd' i e hbefore (List.getElem?_set_self hlt) heq.symm)
  · exact hdstored (hi c hc j d hafter hd (heq.trans hslot))

/-- A write of a fresh call keeps the slots sound. -/
theorem Sound.put (h : r.Sound) (hfresh : r.Fresh i) (hc : r.calls[i]? = some c) (hslot : e.slot = c.slot)
    (hstored : e.stage ≠ .taken) (hfirst : v.1 = e.first) (hsecond : e.stage = .written → v.2 = e.second) :
    (r.put i e v).Sound := by
  have hlt : i < r.calls.length := (List.getElem?_eq_some_iff.mp hc).1
  intro j d hd hj
  by_cases hji : j = i
  · subst hji
    cases Option.some.inj ((List.getElem?_set_self hlt).symm.trans hd)
    have hcell : (r.put j e v).cells e.slot = v := Function.update_self ..
    rw [hcell]
    exact ⟨fun _ => hfirst, hsecond⟩
  · have hd' : r.calls[j]? = some d := (List.getElem?_set_ne (Ne.symm hji)).symm.trans hd
    have hold := h j d hd' (hj.of_put hc hslot hstored hji)
    have hcell : d.stage ≠ .taken → (r.put i e v).cells d.slot = r.cells d.slot := fun hdstored =>
      Function.update_of_ne (hfresh.slot_ne hc hslot hstored hji hd' hdstored hj) ..
    refine ⟨fun hdstored => ?_, fun hwritten => ?_⟩
    · rw [hcell hdstored]
      exact hold.1 hdstored
    · rw [hcell (by rw [hwritten]; nofun)]
      exact hold.2 hwritten

/-- A store of a fresh call keeps the slots sound. -/
theorem Sound.store (h : r.Sound) (hfresh : r.Fresh i) (hstore : r.store i = some r') : r'.Sound := by
  obtain ⟨c, hc, ⟨hstage, rfl⟩ | ⟨hstage, rfl⟩⟩ := store_cases hstore
  · exact h.put hfresh hc rfl nofun rfl nofun
  · have hfirst : (r.cells c.slot).1 = c.first := (h i c hc hfresh).1 (by rw [hstage]; nofun)
    exact h.put hfresh hc rfl nofun hfirst fun _ => rfl

omit [DecidableEq ι] in
/-- The slot of a fresh call that has ended holds its value. -/
theorem Sound.cells_eq (h : r.Sound) (hc : r.calls[i]? = some c) (hwritten : c.stage = .written) (hfresh : r.Fresh i) :
    r.cells c.slot = (c.first, c.second) := by
  obtain ⟨hfirst, hsecond⟩ := h i c hc hfresh
  exact Prod.ext (hfirst (by rw [hwritten]; nofun)) (hsecond hwritten)

end TicketRing
