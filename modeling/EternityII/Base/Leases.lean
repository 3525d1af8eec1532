-- SUMMARY: Leased work items, and what a reclaim that purges descendants keeps covered.
import Mathlib.Data.Multiset.Count
import Mathlib.Data.Multiset.Filter
import Mathlib.Data.Set.Lattice
import Mathlib.Tactic.Common

/-!
# Leased work

A store hands work items out on lease. A client gives smaller items back for the one it holds
and then settles its lease. A reclaim takes leases away, puts their items back, and later
removes every item that descends from one it has put back. Items are known by their keys; a key
stands for a set of solutions, and an origin covers what its descendants cover.

A lease is settled by key. Once a reclaim has taken an item whose key is that of a session or an
origin of it, the lease settled need not be the session's own any more: such a session is
*overtaken*. As long as no overtaken session settles a lease, nothing that was covered is lost.
-/

namespace Leases

/-- What the keys mean. -/
structure Lineage (κ β : Type*) where
  origin : κ → κ → Prop
  size : κ → ℕ
  comp : κ → Set β
  size_lt : ∀ {o d}, origin o d → size o < size d
  comp_subset : ∀ {o d}, origin o d → comp d ⊆ comp o

/-- A client with the item it holds. -/
structure Session (κ : Type*) where
  key : κ
  handed : List κ
  overtaken : Prop

/-- The store: the items in stock, in the hands of the reclaim and on lease, the items the
reclaim has taken so far, the clients, and the solutions recorded. -/
structure State (κ β : Type*) where
  stock : Multiset κ
  inHand : Multiset κ
  leased : Multiset κ
  origins : Set κ
  sessions : Multiset (Session κ)
  recorded : Set β

section Steps

variable {κ β : Type*} [DecidableEq κ] (L : Lineage κ β)

/-- An item of `origins` has the key or is an origin of it. -/
def Overtakes (origins : Set κ) (k : κ) : Prop := k ∈ origins ∨ ∃ o ∈ origins, L.origin o k

/-- The session after a reclaim of some items. -/
def Session.overtake (taken : Set κ) (σ : Session κ) : Session κ :=
  { σ with overtaken := σ.overtaken ∨ Overtakes L taken σ.key }

/-- Everything below the item of a session is recorded or below what it has handed back. -/
def Session.Done (recorded : Set β) (σ : Session κ) : Prop :=
  ∀ b ∈ L.comp σ.key, b ∈ recorded ∨ ∃ d ∈ σ.handed, b ∈ L.comp d

open Classical in
/-- The items that descend from no origin. -/
noncomputable def purge (origins : Set κ) (items : Multiset κ) : Multiset κ :=
  items.filter fun k => ¬ ∃ o ∈ origins, L.origin o k

/-- One step of the store. Items without solutions may get lost on the way into the stock. -/
inductive Step : State κ β → State κ β → Prop
  | lease {s : State κ β} (k : κ) (h : k ∈ s.stock) :
      Step s { s with
        stock := s.stock.erase k
        leased := k ::ₘ s.leased
        sessions := ⟨k, [], Overtakes L s.origins k⟩ ::ₘ s.sessions }
  | grow {s : State κ β} (new : Multiset κ) : Step s { s with stock := s.stock + new }
  | hand {s : State κ β} (σ : Session κ) (others : Multiset (Session κ)) (ds : List κ) (new : Multiset κ)
      (hσ : s.sessions = σ ::ₘ others) (stored : ∀ d ∈ ds, (L.comp d).Nonempty → d ∈ new) :
      Step s { s with
        stock := s.stock + new
        sessions := { σ with handed := σ.handed ++ ds } ::ₘ others }
  | record {s : State κ β} (found : Set β) : Step s { s with recorded := s.recorded ∪ found }
  | settle {s : State κ β} (σ : Session κ) (others : Multiset (Session κ)) (hσ : s.sessions = σ ::ₘ others)
      (done : σ.Done L s.recorded) (current : σ.overtaken → σ.key ∉ s.leased) :
      Step s { s with leased := s.leased.erase σ.key, sessions := others }
  | reclaim {s : State κ β} (taken : Multiset κ) (h : taken ≤ s.leased) :
      Step s { s with
        leased := s.leased - taken
        inHand := s.inHand + taken
        origins := s.origins ∪ {k | k ∈ taken}
        sessions := s.sessions.map (Session.overtake L {k | k ∈ taken}) }
  | putBack {s : State κ β} (k : κ) (h : k ∈ s.inHand) (new : Multiset κ)
      (stored : (L.comp k).Nonempty → k ∈ new) :
      Step s { s with inHand := s.inHand.erase k, stock := s.stock + new }
  | purgeLeased {s : State κ β} : Step s { s with leased := purge L s.origins s.leased }
  | purgeStock {s : State κ β} : Step s { s with stock := purge L s.origins s.stock }
  | finish {s : State κ β} : Step s { s with origins := ∅ }

end Steps

/-! ## The invariant -/

section Invariant

variable {κ β : Type*} [DecidableEq κ] (L : Lineage κ β) (s : State κ β)

/-- The item is somewhere in the store. -/
def State.Holds (k : κ) : Prop := k ∈ s.stock ∨ k ∈ s.inHand ∨ k ∈ s.leased

/-- The solution is recorded or below an item of the store. -/
def State.Covers (b : β) : Prop := b ∈ s.recorded ∨ ∃ k, b ∈ L.comp k ∧ s.Holds k

/-- A session that may settle its lease and has handed back something above `b`. -/
def Session.Armed (b : β) (k : κ) (σ : Session κ) : Prop :=
  ¬ σ.overtaken ∧ σ.key = k ∧ ∃ d ∈ σ.handed, b ∈ L.comp d

/-- A session that has not been overtaken. -/
def Session.Holding (k : κ) (σ : Session κ) : Prop := ¬ σ.overtaken ∧ σ.key = k

open Classical in
/-- How many sessions have the property. -/
noncomputable def tally (p : Session κ → Prop) (sessions : Multiset (Session κ)) : ℕ := sessions.countP p

/-- `b` is below an item that stays even if every armed session settles its lease. -/
def State.Firm (b : β) : Prop :=
  ∃ k, b ∈ L.comp k ∧ (k ∈ s.stock ∨ k ∈ s.inHand ∨
    tally (Session.Armed L b k) s.sessions < s.leased.count k)

/-- `b` survives whatever comes next. -/
def State.Secure (b : β) : Prop := b ∈ s.recorded ∨ (∃ o ∈ s.origins, b ∈ L.comp o) ∨ s.Firm L b

/-- Sessions that have not been overtaken have a lease of their own and lie below no reclaimed
item, the topmost reclaimed items are still in the store, and what is covered is secure. -/
structure State.Inv : Prop where
  own : ∀ k, tally (Session.Holding k) s.sessions ≤ s.leased.count k
  apart : ∀ σ ∈ s.sessions, ¬ σ.overtaken → ¬ Overtakes L s.origins σ.key
  rooted : ∀ o ∈ s.origins, (L.comp o).Nonempty → (∀ o' ∈ s.origins, ¬ L.origin o' o) → s.Holds o
  secure : ∀ b, s.Covers L b → s.Secure L b

end Invariant

section Tally

variable {κ : Type*} {p q : Session κ → Prop} {σ τ : Session κ} {sessions : Multiset (Session κ)}

open Classical in
theorem tally_cons_of_pos (h : p σ) : tally p (σ ::ₘ sessions) = tally p sessions + 1 :=
  Multiset.countP_cons_of_pos _ h

open Classical in
theorem tally_cons_of_neg (h : ¬ p σ) : tally p (σ ::ₘ sessions) = tally p sessions :=
  Multiset.countP_cons_of_neg _ h

open Classical in
theorem tally_eq_zero : tally p sessions = 0 ↔ ∀ σ ∈ sessions, ¬ p σ := Multiset.countP_eq_zero

theorem tally_cons_congr (h : p σ ↔ p τ) : tally p (σ ::ₘ sessions) = tally p (τ ::ₘ sessions) := by
  by_cases hp : p σ
  · rw [tally_cons_of_pos hp, tally_cons_of_pos (h.mp hp)]
  · rw [tally_cons_of_neg hp, tally_cons_of_neg (mt h.mpr hp)]

theorem tally_le_cons : tally p sessions ≤ tally p (σ ::ₘ sessions) := by
  by_cases hp : p σ
  · rw [tally_cons_of_pos hp]
    exact Nat.le_succ _
  · rw [tally_cons_of_neg hp]

/-- Sessions that change keep a property at most where they had the other one. -/
theorem tally_map_le {f : Session κ → Session κ} (h : ∀ σ, p (f σ) → q σ) :
    tally p (sessions.map f) ≤ tally q sessions := by
  induction sessions using Multiset.induction_on with
  | empty => exact Nat.le_of_eq (tally_eq_zero.mpr fun σ hσ => absurd hσ (Multiset.notMem_zero σ))
  | cons σ sessions ih =>
    rw [Multiset.map_cons]
    by_cases hp : p (f σ)
    · rw [tally_cons_of_pos hp, tally_cons_of_pos (h σ hp)]
      exact Nat.succ_le_succ ih
    · rw [tally_cons_of_neg hp]
      exact ih.trans tally_le_cons

theorem tally_mono (h : ∀ σ, p σ → q σ) : tally p sessions ≤ tally q sessions := by
  have hle : tally p (sessions.map id) ≤ tally q sessions := tally_map_le h
  rwa [Multiset.map_id] at hle

end Tally

section Preservation

variable {κ β : Type*} {L : Lineage κ β} {b : β}

/-- Above every solution of a reclaimed item there is a reclaimed item without origins. -/
theorem exists_topmost {origins : Set κ} (h : ∃ o ∈ origins, b ∈ L.comp o) :
    ∃ o ∈ origins, b ∈ L.comp o ∧ ∀ o' ∈ origins, ¬ L.origin o' o := by
  obtain ⟨o, ho, hb⟩ := h
  induction hn : L.size o using Nat.strong_induction_on generalizing o with
  | _ n ih =>
    subst hn
    by_cases htop : ∀ o' ∈ origins, ¬ L.origin o' o
    · exact ⟨o, ho, hb, htop⟩
    · push Not at htop
      obtain ⟨o', ho', horigin⟩ := htop
      exact ih _ (L.size_lt horigin) o' ho' (L.comp_subset horigin hb) rfl

variable [DecidableEq κ] {s s' : State κ β}

/-- Below a reclaimed item everything is firm: the topmost one above it is not on a lease that an
armed session could settle. -/
theorem State.Inv.firm_of_origin (h : s.Inv L) (ho : ∃ o ∈ s.origins, b ∈ L.comp o) : s.Firm L b := by
  obtain ⟨o, ho, hb, htop⟩ := exists_topmost ho
  rcases h.rooted o ho ⟨b, hb⟩ htop with hstock | hhand | hleased
  · exact ⟨o, hb, .inl hstock⟩
  · exact ⟨o, hb, .inr (.inl hhand)⟩
  · -- A session with this key has been overtaken.
    have hnone : tally (Session.Armed L b o) s.sessions = 0 := by
      apply tally_eq_zero.mpr
      rintro σ hσ ⟨hcurrent, rfl, -⟩
      exact h.apart σ hσ hcurrent (.inl ho)
    refine ⟨o, hb, .inr (.inr ?_)⟩
    rw [hnone]
    exact Multiset.count_pos.mpr hleased

theorem State.Firm.covers (h : s.Firm L b) : s.Covers L b := by
  obtain ⟨k, hb, hstock | hhand | hleased⟩ := h
  · exact .inr ⟨k, hb, .inl hstock⟩
  · exact .inr ⟨k, hb, .inr (.inl hhand)⟩
  · exact .inr ⟨k, hb, .inr (.inr (Multiset.count_pos.mp (Nat.zero_lt_of_lt hleased)))⟩

theorem State.Inv.covers (h : s.Inv L) (hb : s.Secure L b) : s.Covers L b := by
  rcases hb with hrecorded | horigin | hfirm
  · exact .inl hrecorded
  · exact (h.firm_of_origin horigin).covers
  · exact hfirm.covers

/-- What a step has to show: the invariant but for `secure`, and that it keeps what is secure and
makes secure what it newly covers. -/
theorem State.Inv.of_secure (h : s.Inv L)
    (own : ∀ k, tally (Session.Holding k) s'.sessions ≤ s'.leased.count k)
    (apart : ∀ σ ∈ s'.sessions, ¬ σ.overtaken → ¬ Overtakes L s'.origins σ.key)
    (rooted : ∀ o ∈ s'.origins, (L.comp o).Nonempty → (∀ o' ∈ s'.origins, ¬ L.origin o' o) → s'.Holds o)
    (keeps : ∀ b, s.Secure L b → s'.Secure L b)
    (covered : ∀ b, s'.Covers L b → s.Covers L b ∨ s'.Secure L b) :
    s'.Inv L ∧ ∀ b, s.Covers L b → s'.Covers L b := by
  have hinv : s'.Inv L :=
    ⟨own, apart, rooted, fun b hb => (covered b hb).elim (fun hs => keeps b (h.secure b hs)) id⟩
  exact ⟨hinv, fun b hb => hinv.covers (keeps b (h.secure b hb))⟩

end Preservation

section Steps

variable {κ β : Type*} [DecidableEq κ] {L : Lineage κ β} {s s' : State κ β}

/-- Armed sessions have leases of their own. -/
theorem State.Inv.armed_le (h : s.Inv L) (b : β) (k : κ) :
    tally (Session.Armed L b k) s.sessions ≤ s.leased.count k :=
  (tally_mono fun _ hσ => ⟨hσ.1, hσ.2.1⟩).trans (h.own k)

/-- More items in the stock, handed back by a session or from elsewhere. -/
theorem State.Inv.hand (h : s.Inv L) {σ : Session κ} {others : Multiset (Session κ)}
    (hσ : s.sessions = σ ::ₘ others) {ds : List κ} {new : Multiset κ}
    (stored : ∀ d ∈ ds, (L.comp d).Nonempty → d ∈ new) :
    ({ s with
      stock := s.stock + new
      sessions := { σ with handed := σ.handed ++ ds } ::ₘ others } : State κ β).Inv L ∧
      ∀ b, s.Covers L b → ({ s with
        stock := s.stock + new
        sessions := { σ with handed := σ.handed ++ ds } ::ₘ others } : State κ β).Covers L b := by
  have hmem : ∀ {k}, k ∈ s.stock → k ∈ s.stock + new := fun hk => Multiset.mem_add.mpr (.inl hk)
  refine h.of_secure (fun k => ?_) (fun τ hτ hcurrent => ?_) (fun o ho hne htop => ?_) (fun b hb => ?_)
    fun b hb => ?_
  · have hown := h.own k
    have hsame : ({ σ with handed := σ.handed ++ ds } : Session κ).Holding k ↔ σ.Holding k := .rfl
    rw [hσ, ← tally_cons_congr hsame] at hown
    exact hown
  · rcases Multiset.mem_cons.mp hτ with rfl | hτ
    · exact h.apart σ (by rw [hσ]; exact Multiset.mem_cons_self _ _) hcurrent
    · exact h.apart τ (by rw [hσ]; exact Multiset.mem_cons_of_mem hτ) hcurrent
  · exact (h.rooted o ho hne htop).imp_left hmem
  · refine hb.imp_right (Or.imp_right fun hfirm => ?_)
    by_cases hd : ∃ d ∈ ds, b ∈ L.comp d
    · obtain ⟨d, hd, hb⟩ := hd
      exact ⟨d, hb, .inl (Multiset.mem_add.mpr (.inr (stored d hd ⟨b, hb⟩)))⟩
    · obtain ⟨k, hk, hwhere⟩ := hfirm
      refine ⟨k, hk, hwhere.imp hmem (Or.imp_right fun hlt => ?_)⟩
      have hsame : ({ σ with handed := σ.handed ++ ds } : Session κ).Armed L b k ↔ σ.Armed L b k := by
        refine and_congr_right fun _ => and_congr_right fun _ => ⟨?_, ?_⟩
        · rintro ⟨d, hmemd, hbd⟩
          rcases List.mem_append.mp hmemd with hold | hnew
          · exact ⟨d, hold, hbd⟩
          · exact absurd ⟨d, hnew, hbd⟩ hd
        · rintro ⟨d, hmemd, hbd⟩
          exact ⟨d, List.mem_append_left _ hmemd, hbd⟩
      rw [hσ, ← tally_cons_congr hsame] at hlt
      exact hlt
  · rcases hb with hb | ⟨k, hk, hstock | hwhere⟩
    · exact .inl (.inl hb)
    · exact .inr (.inr (.inr ⟨k, hk, .inl hstock⟩))
    · exact .inl (.inr ⟨k, hk, .inr hwhere⟩)

theorem State.Inv.grow (h : s.Inv L) (new : Multiset κ) :
    ({ s with stock := s.stock + new } : State κ β).Inv L ∧
      ∀ b, s.Covers L b → ({ s with stock := s.stock + new } : State κ β).Covers L b := by
  have hmem : ∀ {k}, k ∈ s.stock → k ∈ s.stock + new := fun hk => Multiset.mem_add.mpr (.inl hk)
  refine h.of_secure h.own h.apart (fun o ho hne htop => (h.rooted o ho hne htop).imp_left hmem)
    (fun b hb => ?_) fun b hb => ?_
  · refine hb.imp_right (Or.imp_right ?_)
    rintro ⟨k, hk, hwhere⟩
    exact ⟨k, hk, hwhere.imp_left hmem⟩
  · rcases hb with hb | ⟨k, hk, hstock | hwhere⟩
    · exact .inl (.inl hb)
    · exact .inr (.inr (.inr ⟨k, hk, .inl hstock⟩))
    · exact .inl (.inr ⟨k, hk, .inr hwhere⟩)

theorem State.Inv.record (h : s.Inv L) (found : Set β) :
    ({ s with recorded := s.recorded ∪ found } : State κ β).Inv L ∧
      ∀ b, s.Covers L b → ({ s with recorded := s.recorded ∪ found } : State κ β).Covers L b := by
  refine h.of_secure h.own h.apart h.rooted (fun b hb => hb.imp_left .inl) fun b hb => ?_
  rcases hb with (hb | hb) | hb
  · exact .inl (.inl hb)
  · exact .inr (.inl (.inr hb))
  · exact .inl (.inr hb)

/-- A new lease has an unarmed session; the others have leases of their own. -/
theorem State.Inv.lease (h : s.Inv L) {k : κ} (hk : k ∈ s.stock) :
    ({ s with
      stock := s.stock.erase k
      leased := k ::ₘ s.leased
      sessions := ⟨k, [], Overtakes L s.origins k⟩ ::ₘ s.sessions } : State κ β).Inv L ∧
      ∀ b, s.Covers L b → ({ s with
        stock := s.stock.erase k
        leased := k ::ₘ s.leased
        sessions := ⟨k, [], Overtakes L s.origins k⟩ ::ₘ s.sessions } : State κ β).Covers L b := by
  have hmove : ∀ {q}, s.Holds q → q ∈ s.stock.erase k ∨ q ∈ s.inHand ∨ q ∈ k ::ₘ s.leased := by
    rintro q (hstock | hhand | hleased)
    · by_cases hqk : q = k
      · exact .inr (.inr (Multiset.mem_cons.mpr (.inl hqk)))
      · exact .inl ((Multiset.mem_erase_of_ne hqk).mpr hstock)
    · exact .inr (.inl hhand)
    · exact .inr (.inr (Multiset.mem_cons.mpr (.inr hleased)))
  refine h.of_secure (fun q => ?_) (fun σ hσ hcurrent => ?_) (fun o ho hne htop => hmove (h.rooted o ho hne htop))
    (fun b hb => hb.imp_right (Or.imp_right ?_)) fun b hb => ?_
  · have hown := h.own q
    by_cases hnew : Session.Holding q ⟨k, [], Overtakes L s.origins k⟩
    · obtain rfl : k = q := hnew.2
      rw [tally_cons_of_pos hnew, Multiset.count_cons_self]
      exact Nat.succ_le_succ hown
    · rw [tally_cons_of_neg hnew]
      exact hown.trans (Multiset.count_le_count_cons q k s.leased)
  · rcases Multiset.mem_cons.mp hσ with rfl | hσ
    · exact hcurrent
    · exact h.apart σ hσ hcurrent
  · rintro ⟨q, hq, hwhere⟩
    have hunarmed : ¬ Session.Armed L b q ⟨k, [], Overtakes L s.origins k⟩ :=
      fun ⟨_, _, d, hd, _⟩ => absurd hd List.not_mem_nil
    refine ⟨q, hq, ?_⟩
    dsimp only
    rw [tally_cons_of_neg hunarmed]
    rcases hwhere with hstock | hhand | hleased
    · by_cases hqk : q = k
      · subst hqk
        refine .inr (.inr ?_)
        rw [Multiset.count_cons_self]
        exact Nat.lt_succ_of_le (h.armed_le b q)
      · exact .inl ((Multiset.mem_erase_of_ne hqk).mpr hstock)
    · exact .inr (.inl hhand)
    · exact .inr (.inr (Nat.lt_of_lt_of_le hleased (Multiset.count_le_count_cons q k s.leased)))
  · refine .inl (hb.imp_right ?_)
    rintro ⟨q, hq, hstock | hhand | hleased⟩
    · exact ⟨q, hq, .inl (Multiset.mem_of_mem_erase hstock)⟩
    · exact ⟨q, hq, .inr (.inl hhand)⟩
    · rcases Multiset.mem_cons.mp hleased with rfl | hleased
      · exact ⟨q, hq, .inl hk⟩
      · exact ⟨q, hq, .inr (.inr hleased)⟩

/-- A session settles: when it is armed for `b` its lease is one too many for `b`, and when it is
not, `b` is recorded or not below its item. -/
theorem State.Inv.settle (h : s.Inv L) {σ : Session κ} {others : Multiset (Session κ)}
    (hσ : s.sessions = σ ::ₘ others) (done : σ.Done L s.recorded)
    (current : σ.overtaken → σ.key ∉ s.leased) :
    ({ s with leased := s.leased.erase σ.key, sessions := others } : State κ β).Inv L ∧
      ∀ b, s.Covers L b →
        ({ s with leased := s.leased.erase σ.key, sessions := others } : State κ β).Covers L b := by
  have hmemσ : σ ∈ s.sessions := by
    rw [hσ]
    exact Multiset.mem_cons_self σ others
  have herase : ∀ {q}, ¬ σ.Holding q → (s.leased.erase σ.key).count q = s.leased.count q := by
    intro q hq
    by_cases hkey : q = σ.key
    · by_cases hover : σ.overtaken
      · rw [Multiset.erase_of_notMem (current hover)]
      · exact absurd ⟨hover, hkey.symm⟩ hq
    · exact Multiset.count_erase_of_ne hkey s.leased
  refine h.of_secure (fun q => ?_) (fun τ hτ hcurrent => ?_) (fun o ho hne htop => ?_)
    (fun b hb => ?_) fun b hb => ?_
  · have hown := h.own q
    rw [hσ] at hown
    by_cases hq : σ.Holding q
    · rw [tally_cons_of_pos hq] at hown
      obtain rfl := hq.2
      rw [Multiset.count_erase_self]
      exact Nat.le_sub_one_of_lt hown
    · rw [tally_cons_of_neg hq] at hown
      rwa [herase hq]
  · refine h.apart τ ?_ hcurrent
    rw [hσ]
    exact Multiset.mem_cons_of_mem hτ
  · refine (h.rooted o ho hne htop).imp_right (Or.imp_right fun hleased => ?_)
    have hq : ¬ σ.Holding o := fun hq => h.apart σ hmemσ hq.1 (.inl (hq.2 ▸ ho))
    apply Multiset.count_pos.mp
    rw [herase hq]
    exact Multiset.count_pos.mpr hleased
  · rcases hb with hb | horigin | ⟨q, hq, hwhere⟩
    · exact .inl hb
    · exact .inr (.inl horigin)
    · by_cases hrecorded : b ∈ s.recorded
      · exact .inl hrecorded
      · refine .inr (.inr ⟨q, hq, hwhere.imp_right (Or.imp_right fun hlt => ?_)⟩)
        rw [hσ] at hlt
        by_cases hhold : σ.Holding q
        · obtain rfl := hhold.2
          have harmed : σ.Armed L b σ.key := ⟨hhold.1, rfl, (done b hq).resolve_left hrecorded⟩
          rw [tally_cons_of_pos harmed] at hlt
          rw [Multiset.count_erase_self]
          exact Nat.lt_sub_of_add_lt hlt
        · have harmed : ¬ σ.Armed L b q := fun harmed => hhold ⟨harmed.1, harmed.2.1⟩
          rw [tally_cons_of_neg harmed] at hlt
          rwa [herase hhold]
  · refine .inl (hb.imp_right ?_)
    rintro ⟨q, hq, hwhere⟩
    exact ⟨q, hq, hwhere.imp_right (Or.imp_right Multiset.mem_of_mem_erase)⟩

/-- Every session whose key is taken, or below a taken item, is overtaken. -/
theorem State.Inv.reclaim (h : s.Inv L) {taken : Multiset κ} (htaken : taken ≤ s.leased) :
    ({ s with
      leased := s.leased - taken
      inHand := s.inHand + taken
      origins := s.origins ∪ {k | k ∈ taken}
      sessions := s.sessions.map (Session.overtake L {k | k ∈ taken}) } : State κ β).Inv L ∧
      ∀ b, s.Covers L b → ({ s with
        leased := s.leased - taken
        inHand := s.inHand + taken
        origins := s.origins ∪ {k | k ∈ taken}
        sessions := s.sessions.map (Session.overtake L {k | k ∈ taken}) } : State κ β).Covers L b := by
  have hcount : ∀ {q}, q ∉ taken → (s.leased - taken).count q = s.leased.count q := fun hq => by
    rw [Multiset.count_sub, Multiset.count_eq_zero.mpr hq, Nat.sub_zero]
  have hmove : ∀ {q}, s.Holds q → q ∈ s.stock ∨ q ∈ s.inHand + taken ∨ q ∈ s.leased - taken := by
    rintro q (hstock | hhand | hleased)
    · exact .inl hstock
    · exact .inr (.inl (Multiset.mem_add.mpr (.inl hhand)))
    · by_cases hq : q ∈ taken
      · exact .inr (.inl (Multiset.mem_add.mpr (.inr hq)))
      · refine .inr (.inr (Multiset.count_pos.mp ?_))
        rw [hcount hq]
        exact Multiset.count_pos.mpr hleased
  refine h.of_secure (fun q => ?_) (fun σ' hσ' hcurrent => ?_) (fun o ho hne htop => ?_) (fun b hb => ?_)
    fun b hb => ?_
  · by_cases hq : q ∈ taken
    · have hnone : tally (Session.Holding q) (s.sessions.map (Session.overtake L {k | k ∈ taken})) = 0 := by
        apply tally_eq_zero.mpr
        rintro σ' hσ' ⟨hcurrent, hkey⟩
        obtain ⟨σ, -, rfl⟩ := Multiset.mem_map.mp hσ'
        obtain rfl : σ.key = q := hkey
        exact hcurrent (.inr (.inl hq))
      exact hnone ▸ Nat.zero_le _
    · rw [hcount hq]
      exact (tally_map_le fun σ hσ => ⟨fun hover => hσ.1 (.inl hover), hσ.2⟩).trans (h.own q)
  · obtain ⟨σ, hσ, rfl⟩ := Multiset.mem_map.mp hσ'
    rintro ((ho | htaken) | ⟨o, ho | htaken, horigin⟩)
    · exact h.apart σ hσ (fun hover => hcurrent (.inl hover)) (.inl ho)
    · exact hcurrent (.inr (.inl htaken))
    · exact h.apart σ hσ (fun hover => hcurrent (.inl hover)) (.inr ⟨o, ho, horigin⟩)
    · exact hcurrent (.inr (.inr ⟨o, htaken, horigin⟩))
  · rcases ho with ho | ho
    · exact hmove (h.rooted o ho hne fun o' ho' => htop o' (.inl ho'))
    · exact .inr (.inl (Multiset.mem_add.mpr (.inr ho)))
  · rcases hb with hb | ⟨o, ho, hb⟩ | ⟨q, hq, hwhere⟩
    · exact .inl hb
    · exact .inr (.inl ⟨o, .inl ho, hb⟩)
    · by_cases htake : q ∈ taken
      · exact .inr (.inl ⟨q, .inr htake, hq⟩)
      · refine .inr (.inr ⟨q, hq, hwhere.imp_right (Or.imp (fun hhand => Multiset.mem_add.mpr (.inl hhand))
          fun hlt => ?_)⟩)
        rw [hcount htake]
        refine Nat.lt_of_le_of_lt (tally_map_le fun σ hσ => ?_) hlt
        exact ⟨fun hover => hσ.1 (.inl hover), hσ.2⟩
  · refine .inl (hb.imp_right ?_)
    rintro ⟨q, hq, hstock | hhand | hleased⟩
    · exact ⟨q, hq, .inl hstock⟩
    · rcases Multiset.mem_add.mp hhand with hhand | htake
      · exact ⟨q, hq, .inr (.inl hhand)⟩
      · exact ⟨q, hq, .inr (.inr (Multiset.mem_of_le htaken htake))⟩
    · exact ⟨q, hq, .inr (.inr (Multiset.mem_of_le (Multiset.sub_le_self _ _) hleased))⟩

theorem State.Inv.putBack (h : s.Inv L) {k : κ} {new : Multiset κ}
    (stored : (L.comp k).Nonempty → k ∈ new) :
    ({ s with inHand := s.inHand.erase k, stock := s.stock + new } : State κ β).Inv L ∧
      ∀ b, s.Covers L b →
        ({ s with inHand := s.inHand.erase k, stock := s.stock + new } : State κ β).Covers L b := by
  have hmove : ∀ {q b}, b ∈ L.comp q → q ∈ s.inHand → q ∈ s.stock + new ∨ q ∈ s.inHand.erase k := by
    intro q b hb hhand
    by_cases hqk : q = k
    · exact .inl (Multiset.mem_add.mpr (.inr (hqk ▸ stored (hqk ▸ ⟨b, hb⟩))))
    · exact .inr ((Multiset.mem_erase_of_ne hqk).mpr hhand)
  have hstay : ∀ {q}, q ∈ s.stock → q ∈ s.stock + new := fun hq => Multiset.mem_add.mpr (.inl hq)
  refine h.of_secure h.own h.apart (fun o ho hne htop => ?_) (fun b hb => ?_) fun b hb => ?_
  · obtain ⟨b, hb⟩ := hne
    rcases h.rooted o ho ⟨b, hb⟩ htop with hstock | hhand | hleased
    · exact .inl (hstay hstock)
    · exact (hmove hb hhand).imp_right .inl
    · exact .inr (.inr hleased)
  · refine hb.imp_right (Or.imp_right ?_)
    rintro ⟨q, hq, hstock | hhand | hlt⟩
    · exact ⟨q, hq, .inl (hstay hstock)⟩
    · exact ⟨q, hq, (hmove hq hhand).imp_right .inl⟩
    · exact ⟨q, hq, .inr (.inr hlt)⟩
  · rcases hb with hb | ⟨q, hq, hstock | hhand | hleased⟩
    · exact .inl (.inl hb)
    · exact .inr (.inr (.inr ⟨q, hq, .inl hstock⟩))
    · exact .inl (.inr ⟨q, hq, .inr (.inl (Multiset.mem_of_mem_erase hhand))⟩)
    · exact .inl (.inr ⟨q, hq, .inr (.inr hleased)⟩)

section Purge

variable {origins : Set κ} {items : Multiset κ} {k : κ}

open Classical in
omit [DecidableEq κ] in
theorem mem_purge : k ∈ purge L origins items ↔ k ∈ items ∧ ¬ ∃ o ∈ origins, L.origin o k :=
  Multiset.mem_filter

open Classical in
omit [DecidableEq κ] in
theorem purge_zero : purge L origins 0 = 0 := Multiset.filter_zero _

open Classical in
omit [DecidableEq κ] in
theorem purge_cons_of_pos (h : ¬ ∃ o ∈ origins, L.origin o k) :
    purge L origins (k ::ₘ items) = k ::ₘ purge L origins items :=
  Multiset.filter_cons_of_pos items h

open Classical in
omit [DecidableEq κ] in
theorem purge_cons_of_neg (h : ∃ o ∈ origins, L.origin o k) :
    purge L origins (k ::ₘ items) = purge L origins items :=
  Multiset.filter_cons_of_neg items (not_not.mpr h)

open Classical in
theorem count_purge (h : ¬ ∃ o ∈ origins, L.origin o k) : (purge L origins items).count k = items.count k :=
  Multiset.count_filter_of_pos h

end Purge

/-- What a purge removes from the leases lies below a reclaimed item. -/
theorem State.Inv.purgeLeased (h : s.Inv L) :
    ({ s with leased := purge L s.origins s.leased } : State κ β).Inv L ∧
      ∀ b, s.Covers L b → ({ s with leased := purge L s.origins s.leased } : State κ β).Covers L b := by
  refine h.of_secure (fun q => ?_) h.apart (fun o ho hne htop => ?_) (fun b hb => ?_) fun b hb => ?_
  · by_cases hq : ∃ o ∈ s.origins, L.origin o q
    · have hnone : tally (Session.Holding q) s.sessions = 0 := by
        apply tally_eq_zero.mpr
        rintro σ hσ ⟨hcurrent, rfl⟩
        exact h.apart σ hσ hcurrent (.inr hq)
      exact hnone ▸ Nat.zero_le _
    · rw [count_purge hq]
      exact h.own q
  · refine (h.rooted o ho hne htop).imp_right (Or.imp_right fun hleased => mem_purge.mpr ⟨hleased, ?_⟩)
    rintro ⟨o', ho', horigin⟩
    exact htop o' ho' horigin
  · rcases hb with hb | horigin | ⟨q, hq, hwhere⟩
    · exact .inl hb
    · exact .inr (.inl horigin)
    · by_cases hbelow : ∃ o ∈ s.origins, L.origin o q
      · obtain ⟨o, ho, horigin⟩ := hbelow
        exact .inr (.inl ⟨o, ho, L.comp_subset horigin hq⟩)
      · refine .inr (.inr ⟨q, hq, hwhere.imp_right (Or.imp_right fun hlt => ?_)⟩)
        rwa [count_purge hbelow]
  · refine .inl (hb.imp_right ?_)
    rintro ⟨q, hq, hwhere⟩
    exact ⟨q, hq, hwhere.imp_right (Or.imp_right fun hleased => (mem_purge.mp hleased).1)⟩

theorem State.Inv.purgeStock (h : s.Inv L) :
    ({ s with stock := purge L s.origins s.stock } : State κ β).Inv L ∧
      ∀ b, s.Covers L b → ({ s with stock := purge L s.origins s.stock } : State κ β).Covers L b := by
  refine h.of_secure h.own h.apart (fun o ho hne htop => ?_) (fun b hb => ?_) fun b hb => ?_
  · refine (h.rooted o ho hne htop).imp_left fun hstock => mem_purge.mpr ⟨hstock, ?_⟩
    rintro ⟨o', ho', horigin⟩
    exact htop o' ho' horigin
  · rcases hb with hb | horigin | ⟨q, hq, hwhere⟩
    · exact .inl hb
    · exact .inr (.inl horigin)
    · by_cases hbelow : ∃ o ∈ s.origins, L.origin o q
      · obtain ⟨o, ho, horigin⟩ := hbelow
        exact .inr (.inl ⟨o, ho, L.comp_subset horigin hq⟩)
      · exact .inr (.inr ⟨q, hq, hwhere.imp_left fun hstock => mem_purge.mpr ⟨hstock, hbelow⟩⟩)
  · refine .inl (hb.imp_right ?_)
    rintro ⟨q, hq, hwhere⟩
    exact ⟨q, hq, hwhere.imp_left fun hstock => (mem_purge.mp hstock).1⟩

theorem State.Inv.finish (h : s.Inv L) :
    ({ s with origins := ∅ } : State κ β).Inv L ∧
      ∀ b, s.Covers L b → ({ s with origins := ∅ } : State κ β).Covers L b := by
  refine h.of_secure h.own (fun σ _ _ => ?_) (fun o ho => absurd ho (Set.notMem_empty o)) (fun b hb => ?_)
    fun b hb => .inl hb
  · rintro (ho | ⟨o, ho, -⟩)
    · exact ho
    · exact ho
  · exact hb.imp_right fun hb => .inr (hb.elim h.firm_of_origin id)

/-- Every step keeps the invariant and everything that is covered. -/
theorem Step.preserves (hstep : Step L s s') (h : s.Inv L) :
    s'.Inv L ∧ ∀ b, s.Covers L b → s'.Covers L b := by
  cases hstep with
  | lease k hk => exact h.lease hk
  | grow new => exact h.grow new
  | hand σ others ds new hσ stored => exact h.hand hσ stored
  | record found => exact h.record found
  | settle σ others hσ done current => exact h.settle hσ done current
  | reclaim taken htaken => exact h.reclaim htaken
  | putBack k _ new stored => exact h.putBack stored
  | purgeLeased => exact h.purgeLeased
  | purgeStock => exact h.purgeStock
  | finish => exact h.finish

/-- So does every run. -/
theorem run_preserves (hrun : Relation.ReflTransGen (Step L) s s') (h : s.Inv L) :
    s'.Inv L ∧ ∀ b, s.Covers L b → s'.Covers L b := by
  induction hrun with
  | refl => exact ⟨h, fun _ hb => hb⟩
  | tail _ hstep ih =>
    obtain ⟨hinv, hcovers⟩ := hstep.preserves ih.1
    exact ⟨hinv, fun b hb => hcovers b (ih.2 b hb)⟩

end Steps

/-! ## Starting -/

/-- No reclaim is under way, and the clients hold leases of their own and have handed nothing
back yet. -/
structure State.Initial {κ β : Type*} [DecidableEq κ] (s : State κ β) : Prop where
  origins : s.origins = ∅
  handed : ∀ σ ∈ s.sessions, σ.handed = []
  own : ∀ k, tally (Session.Holding k) s.sessions ≤ s.leased.count k

theorem State.Initial.inv {κ β : Type*} [DecidableEq κ] {L : Lineage κ β} {s : State κ β}
    (h : s.Initial) : s.Inv L where
  own := h.own
  apart σ _ _ := by
    rw [h.origins]
    rintro (ho | ⟨o, ho, -⟩)
    · exact ho
    · exact ho
  rooted o ho := by
    rw [h.origins] at ho
    exact absurd ho (Set.notMem_empty o)
  secure b hb := by
    rcases hb with hb | ⟨k, hk, hwhere⟩
    · exact .inl hb
    · refine .inr (.inr ⟨k, hk, hwhere.imp_right (Or.imp_right fun hleased => ?_)⟩)
      have hnone : tally (Session.Armed L b k) s.sessions = 0 := by
        apply tally_eq_zero.mpr
        rintro σ hσ ⟨-, -, d, hd, -⟩
        rw [h.handed σ hσ] at hd
        exact absurd hd List.not_mem_nil
      rw [hnone]
      exact Multiset.count_pos.mpr hleased

end Leases
