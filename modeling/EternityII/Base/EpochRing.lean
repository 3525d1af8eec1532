-- SUMMARY: A ring of counters tagged with the epoch they count.
import Mathlib.Algebra.BigOperators.Group.List.Basic
import Mathlib.Data.Nat.ModEq
import Mathlib.Logic.Function.Basic
import Mathlib.Tactic.Common

/-!
# Rings of epochs

A ring has `size` buckets. An event of epoch `e` is counted in bucket `e % size`, which is set to zero
first when it counted another epoch. Nothing else clears a bucket, so one that was not written in the
current turn still holds an older epoch; its tag is what tells it from the epoch that is asked for.
-/

/-- A counter and the epoch that it counts. -/
structure EpochBucket (M : Type*) where
  epoch : Nat
  count : M
  deriving DecidableEq, Repr

namespace EpochBucket

variable {M : Type*} [AddMonoid M] {b : EpochBucket M} {e e' : Nat}

/-- Count `n` in epoch `e`. -/
def add (b : EpochBucket M) (e : Nat) (n : M) : EpochBucket M :=
  let b := if b.epoch ≠ e then { b with count := 0, epoch := e } else b
  { b with count := b.count + n }

/-- What the bucket counted in epoch `e`. -/
def read (b : EpochBucket M) (e : Nat) : M := if b.epoch ≠ e then 0 else b.count

theorem epoch_add (n : M) : (b.add e n).epoch = e := by
  by_cases h : b.epoch = e <;> simp [add, h]

theorem read_add_self (n : M) : (b.add e n).read e = b.read e + n := by
  by_cases h : b.epoch = e <;> simp [add, read, h]

theorem read_add_of_ne (h : e' ≠ e) (n : M) : (b.add e n).read e' = 0 := by
  rw [read, epoch_add, if_pos h.symm]

end EpochBucket

/-- The buckets of a ring. -/
abbrev EpochRing (M : Type*) := Nat → EpochBucket M

namespace EpochRing

variable {M : Type*} [AddMonoid M] {size last e : Nat} {r : EpochRing M} {events : List (Nat × M)}

/-- The ring before any event. -/
def empty : EpochRing M := fun _ => ⟨0, 0⟩

/-- Count an event. -/
def record (size : Nat) (r : EpochRing M) (p : Nat × M) : EpochRing M :=
  Function.update r (p.1 % size) ((r (p.1 % size)).add p.1 p.2)

/-- What the ring tells of an epoch. -/
def lookup (size : Nat) (r : EpochRing M) (e : Nat) : M := (r (e % size)).read e

/-- The events of an epoch, added up. -/
def total (events : List (Nat × M)) (e : Nat) : M := ((events.filter (·.1 = e)).map (·.2)).sum

/-- The ring has counted the events, the last of them not after epoch `last`, and tells every epoch
of the turn that ends there. -/
structure Tracks (size : Nat) (r : EpochRing M) (events : List (Nat × M)) (last : Nat) : Prop where
  past : ∀ p ∈ events, p.1 ≤ last
  told : ∀ e, last < e + size → r.lookup size e = total events e

theorem total_concat_self (n : M) : total (events ++ [(e, n)]) e = total events e + n := by
  simp [total, List.filter_append]

theorem total_concat_of_ne {e' : Nat} (h : e' ≠ e) (n : M) : total (events ++ [(e, n)]) e' = total events e' := by
  simp [total, List.filter_append, h.symm]

/-- No event is in an epoch to come. -/
theorem total_eq_zero (hpast : ∀ p ∈ events, p.1 ≤ last) (h : last < e) : total events e = 0 := by
  have hnone : events.filter (·.1 = e) = [] := by
    rw [List.filter_eq_nil_iff]
    intro p hp
    have := hpast p hp
    simp only [decide_eq_true_eq]
    omega
  rw [total, hnone, List.map_nil, List.sum_nil]

theorem lookup_record_self (n : M) : (r.record size (e, n)).lookup size e = r.lookup size e + n := by
  rw [lookup, record, Function.update_self, EpochBucket.read_add_self, lookup]

theorem lookup_record_of_mod_ne {e' : Nat} (h : e' % size ≠ e % size) (n : M) :
    (r.record size (e, n)).lookup size e' = r.lookup size e' := by
  rw [lookup, record, Function.update_of_ne h, lookup]

theorem lookup_record_of_ne {e' : Nat} (h : e' ≠ e) (hmod : e' % size = e % size) (n : M) :
    (r.record size (e, n)).lookup size e' = 0 := by
  rw [lookup, record, hmod, Function.update_self, EpochBucket.read_add_of_ne h]

/-- Two epochs of one bucket are a turn apart. -/
theorem add_size_le {e' : Nat} (h : e' < e) (hmod : e' % size = e % size) : e' + size ≤ e := by
  obtain ⟨k, hk⟩ := (Nat.modEq_iff_dvd' (Nat.le_of_lt h)).mp hmod
  have hk0 : k ≠ 0 := by
    rintro rfl
    rw [Nat.mul_zero] at hk
    omega
  have hle : size ≤ size * k := Nat.le_mul_of_pos_right size (Nat.pos_of_ne_zero hk0)
  omega

theorem tracks_empty : Tracks size (empty : EpochRing M) [] 0 where
  past _ hp := absurd hp List.not_mem_nil
  told _ _ := ite_self 0

/-- An event that is not before the ones counted so far. -/
theorem Tracks.record (h : Tracks size r events last) (hle : last ≤ e) (n : M) :
    Tracks size (r.record size (e, n)) (events ++ [(e, n)]) e where
  past p hp := by
    rcases List.mem_append.mp hp with hp | hp
    · exact Nat.le_trans (h.past p hp) hle
    · exact Nat.le_of_eq (congrArg Prod.fst (List.mem_singleton.mp hp))
  told e' he' := by
    rcases eq_or_ne e' e with rfl | hne
    · rw [lookup_record_self, total_concat_self, h.told e' (by omega)]
    · rw [total_concat_of_ne hne]
      by_cases hmod : e' % size = e % size
      · -- an older epoch of this bucket is out of the turn, so `e'` is still to come
        have hlt : e < e' := by
          by_contra hge
          have := add_size_le (by omega) hmod
          omega
        rw [lookup_record_of_ne hne hmod, total_eq_zero h.past (by omega)]
      · rw [lookup_record_of_mod_ne hmod, h.told e' (by omega)]

/-- Counting a list of events in the order of their epochs. -/
theorem Tracks.foldl {l : List (Nat × M)} (h : Tracks size r events last) (hsorted : l.Pairwise (·.1 ≤ ·.1))
    (hlast : ∀ p ∈ l, last ≤ p.1) {now : Nat} (hnow : last ≤ now) (hpast : ∀ p ∈ l, p.1 ≤ now) :
    ∃ last', last' ≤ now ∧ Tracks size (l.foldl (EpochRing.record size) r) (events ++ l) last' := by
  induction l generalizing r events last with
  | nil => exact ⟨last, hnow, by rwa [List.append_nil]⟩
  | cons p l ih =>
    obtain ⟨hfirst, hrest⟩ := List.pairwise_cons.mp hsorted
    have hnext : Tracks size (r.record size p) (events ++ [p]) p.1 := h.record (hlast p List.mem_cons_self) p.2
    obtain ⟨last', hle, htracks⟩ := ih hnext hrest hfirst (hpast p List.mem_cons_self)
      fun q hq => hpast q (List.mem_cons_of_mem p hq)
    exact ⟨last', hle, by rwa [List.foldl_cons, List.append_cons]⟩

/-- Every epoch of the turn that ends at `now` is told, and so is every epoch after it. -/
theorem lookup_foldl (hsorted : events.Pairwise (·.1 ≤ ·.1)) {now : Nat} (hpast : ∀ p ∈ events, p.1 ≤ now)
    (he : now < e + size) :
    (events.foldl (EpochRing.record size) (empty : EpochRing M)).lookup size e = total events e := by
  obtain ⟨last', hle, htracks⟩ := tracks_empty.foldl hsorted (fun _ _ => Nat.zero_le _) (Nat.zero_le now) hpast
  rw [htracks.told e (by omega), List.nil_append]

end EpochRing
