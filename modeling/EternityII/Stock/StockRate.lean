-- SUMMARY: The rates of the stock: the sums over the last minute, hour and day are exact for events in the order of time.
import EternityII.Base.EpochRing
import Mathlib.Data.BitVec

/-! ## The counter -/

/-- `STOCK_RATE_SEC_BUCKETS`. -/
def stockRateSecBuckets : Nat := 60

/-- `STOCK_RATE_MIN_BUCKETS`. -/
def stockRateMinBuckets : Nat := 1440

/-- `stock_rate_counter_t`: a `rate_bucket_t` has a count of 32 bits; `bucket_add` and `bucket_read`
are `EpochBucket.add` and `EpochBucket.read`. -/
structure StockRateCounter where
  sec : EpochRing (BitVec 32)
  min : EpochRing (BitVec 32)

/-- The counter of a server that has just started. -/
def StockRateCounter.zero : StockRateCounter := ⟨EpochRing.empty, EpochRing.empty⟩

/-- The arguments of `stock_rate_record`. A time is what the cast to `uint64_t` leaves of a `time_t`:
both functions make that cast before any use, and it keeps the order of the times that `time(2)` gives. -/
structure RateRecord where
  n : BitVec 32
  now : UInt64
  deriving DecidableEq, Repr

namespace RateRecord

/-- `sec_epoch`. -/
def second (r : RateRecord) : Nat := r.now.toNat

/-- `min_epoch`. -/
def minute (r : RateRecord) : Nat := r.now.toNat / 60

end RateRecord

/-- `stock_rate_record`. -/
def stockRateRecord (c : StockRateCounter) (r : RateRecord) : StockRateCounter :=
  if r.n = 0#32 then c
  else
    { sec := c.sec.record stockRateSecBuckets (r.second, r.n)
      min := c.min.record stockRateMinBuckets (r.minute, r.n) }

/-- `sum_sec_window` and `sum_min_window`, with the subtraction of 64 bits. -/
def sumWindow (size : Nat) (ring : EpochRing (BitVec 32)) (now window : Nat) : Nat :=
  ((List.range window).map fun i => (ring.lookup size ((now + 2 ^ 64 - i) % 2 ^ 64)).toNat).sum

/-- `sum_sec_window`. -/
def sumSecWindow (c : StockRateCounter) (nowSec windowSeconds : Nat) : Nat :=
  sumWindow stockRateSecBuckets c.sec nowSec windowSeconds

/-- `sum_min_window`. -/
def sumMinWindow (c : StockRateCounter) (nowMin windowMinutes : Nat) : Nat :=
  sumWindow stockRateMinBuckets c.min nowMin windowMinutes

/-- `stock_rate_windows`: `last_1m`, `last_1h` and `last_1d`. -/
def stockRateWindows (c : StockRateCounter) (now : UInt64) : Nat × Nat × Nat :=
  (sumSecWindow c now.toNat stockRateSecBuckets, sumMinWindow c (now.toNat / 60) 60,
    sumMinWindow c (now.toNat / 60) stockRateMinBuckets)

/-! ## Events of a window -/

/-- The events of the records that satisfy `p`. -/
def eventsOf (records : List RateRecord) (p : RateRecord → Prop) [DecidablePred p] : Nat :=
  (records.map fun r => if p r then r.n.toNat else 0).sum

/-- What a list of records counts in a ring of epochs. -/
def ringEvents (epoch : RateRecord → Nat) (records : List RateRecord) : List (Nat × BitVec 32) :=
  (records.filter (·.n ≠ 0#32)).map fun r => (epoch r, r.n)

section Window

variable {records : List RateRecord} {epoch : RateRecord → Nat} {size now window e : Nat}

theorem ringEvents_cons (r : RateRecord) :
    ringEvents epoch (r :: records) =
      if r.n = 0#32 then ringEvents epoch records else (epoch r, r.n) :: ringEvents epoch records := by
  by_cases h : r.n = 0#32 <;> simp [ringEvents, h]

theorem foldl_stockRateRecord (c : StockRateCounter) :
    records.foldl stockRateRecord c =
      { sec := (ringEvents RateRecord.second records).foldl (EpochRing.record stockRateSecBuckets) c.sec
        min := (ringEvents RateRecord.minute records).foldl (EpochRing.record stockRateMinBuckets) c.min } := by
  induction records generalizing c with
  | nil => rfl
  | cons r records ih =>
    rw [List.foldl_cons, ih, stockRateRecord, ringEvents_cons, ringEvents_cons]
    by_cases h : r.n = 0#32
    · simp only [if_pos h]
    · simp only [if_neg h, List.foldl_cons]

/-- The count of an epoch, up to the width of a bucket. -/
theorem toNat_total : (EpochRing.total (ringEvents epoch records) e).toNat = eventsOf records (epoch · = e) % 2 ^ 32 := by
  induction records with
  | nil => rfl
  | cons r records ih =>
    have hrest : EpochRing.total (ringEvents epoch (r :: records)) e =
        (if epoch r = e then r.n else 0#32) + EpochRing.total (ringEvents epoch records) e := by
      rw [ringEvents_cons]
      by_cases hzero : r.n = 0#32
      · rw [if_pos hzero, hzero]
        split <;> exact (BitVec.zero_add _).symm
      · by_cases he : epoch r = e <;> simp [EpochRing.total, hzero, he]
    have hhead : (if epoch r = e then r.n else 0#32).toNat = if epoch r = e then r.n.toNat else 0 := by
      split <;> rfl
    rw [hrest, BitVec.toNat_add, ih, hhead, Nat.add_mod_mod]
    rfl

/-- One more epoch behind a window. -/
theorem eventsOf_succ (hpast : ∀ r ∈ records, epoch r ≤ now) (hnow : now < 2 ^ 64) (hwindow : window < 2 ^ 64) :
    eventsOf records (now < epoch · + (window + 1)) =
      eventsOf records (now < epoch · + window) + eventsOf records (epoch · = (now + 2 ^ 64 - window) % 2 ^ 64) := by
  rw [eventsOf, eventsOf, eventsOf, ← List.sum_map_add]
  refine congrArg List.sum (List.map_congr_left fun r hr => ?_)
  have hle := hpast r hr
  -- the epoch behind the window wraps around when it would be negative, and then no record has it
  rcases Nat.lt_or_ge now window with hwrap | hin
  · have hmod : (now + 2 ^ 64 - window) % 2 ^ 64 = now + 2 ^ 64 - window := Nat.mod_eq_of_lt (by omega)
    rw [hmod, if_pos (by omega), if_pos (by omega), if_neg (by omega), Nat.add_zero]
  · have hmod : (now + 2 ^ 64 - window) % 2 ^ 64 = now - window := by
      rw [show now + 2 ^ 64 - window = now - window + 2 ^ 64 by omega, Nat.add_mod_right, Nat.mod_eq_of_lt (by omega)]
    rw [hmod]
    split_ifs <;> omega

/-- A ring tells the events of any window that is not longer than a turn. -/
theorem sumWindow_eq (hsorted : records.Pairwise fun r r' => epoch r ≤ epoch r')
    (hpast : ∀ r ∈ records, epoch r ≤ now) (hfew : ∀ e, eventsOf records (epoch · = e) < 2 ^ 32)
    (hnow : now < 2 ^ 64) (hsize : size ≤ 2 ^ 64) (hwindow : window ≤ size) :
    sumWindow size ((ringEvents epoch records).foldl (EpochRing.record size) EpochRing.empty) now window =
      eventsOf records (now < epoch · + window) := by
  have hsorted' : (ringEvents epoch records).Pairwise (·.1 ≤ ·.1) :=
    List.pairwise_map.mpr (hsorted.sublist List.filter_sublist)
  have hpast' : ∀ p ∈ ringEvents epoch records, p.1 ≤ now := by
    intro p hp
    obtain ⟨r, hr, rfl⟩ := List.mem_map.mp hp
    exact hpast r (List.mem_of_mem_filter hr)
  induction window with
  | zero =>
    have hnone : eventsOf records (now < epoch · + 0) = 0 := by
      refine List.sum_eq_zero fun x hx => ?_
      obtain ⟨r, hr, rfl⟩ := List.mem_map.mp hx
      exact if_neg (Nat.not_lt.mpr (hpast r hr))
    rw [hnone]
    rfl
  | succ window ih =>
    have hprev := ih (Nat.le_of_succ_le hwindow)
    have htold : now < (now + 2 ^ 64 - window) % 2 ^ 64 + size := by
      rcases Nat.lt_or_ge now window with hwrap | hin
      · rw [Nat.mod_eq_of_lt (by omega)]
        omega
      · rw [show now + 2 ^ 64 - window = now - window + 2 ^ 64 by omega, Nat.add_mod_right,
          Nat.mod_eq_of_lt (by omega)]
        omega
    rw [sumWindow, List.range_succ, List.map_append, List.sum_append, List.map_singleton, List.sum_singleton,
      ← sumWindow, hprev, EpochRing.lookup_foldl hsorted' hpast' htold, toNat_total, Nat.mod_eq_of_lt (hfew _),
      eventsOf_succ hpast hnow (by omega)]

end Window

/-! ## The sums that the server shows -/

/-- The events of a second are among the events of its minute. -/
theorem eventsOf_mono {records : List RateRecord} {p q : RateRecord → Prop} [DecidablePred p] [DecidablePred q]
    (h : ∀ r, p r → q r) : eventsOf records p ≤ eventsOf records q := by
  induction records with
  | nil => exact le_rfl
  | cons r records ih =>
    have hhead : (if p r then r.n.toNat else 0) ≤ if q r then r.n.toNat else 0 := by
      by_cases hp : p r
      · rw [if_pos hp, if_pos (h r hp)]
      · rw [if_neg hp]
        exact Nat.zero_le _
    exact Nat.add_le_add hhead ih

/-- The sums of the last 60 seconds, of the last 60 minutes and of the last 1440 minutes up to `now`. -/
theorem stockRateWindows_exact (records : List RateRecord) (now : UInt64)
    (hsorted : records.Pairwise fun r r' => r.now ≤ r'.now) (hpast : ∀ r ∈ records, r.now ≤ now)
    (hfew : ∀ m, eventsOf records (·.minute = m) < 2 ^ 32) :
    stockRateWindows (records.foldl stockRateRecord .zero) now =
      (eventsOf records (now.toNat < ·.second + 60), eventsOf records (now.toNat / 60 < ·.minute + 60),
        eventsOf records (now.toNat / 60 < ·.minute + 1440)) := by
  have hlt : now.toNat < 2 ^ 64 := now.toNat_lt
  have hminute : now.toNat / 60 < 2 ^ 64 := Nat.lt_of_le_of_lt (Nat.div_le_self _ _) hlt
  have hseconds : records.Pairwise fun r r' => r.second ≤ r'.second :=
    hsorted.imp fun hle => UInt64.le_iff_toNat_le.mp hle
  have hpastSec : ∀ r ∈ records, r.second ≤ now.toNat := fun r hr => UInt64.le_iff_toNat_le.mp (hpast r hr)
  have hfewSec : ∀ e, eventsOf records (·.second = e) < 2 ^ 32 := by
    intro e
    have hle : eventsOf records (·.second = e) ≤ eventsOf records (·.minute = e / 60) :=
      eventsOf_mono fun r (hr : r.second = e) => congrArg (· / 60) hr
    exact Nat.lt_of_le_of_lt hle (hfew (e / 60))
  have hminutes : records.Pairwise fun r r' => r.minute ≤ r'.minute :=
    hseconds.imp fun hle => Nat.div_le_div_right hle
  have hpastMin : ∀ r ∈ records, r.minute ≤ now.toNat / 60 := fun r hr => Nat.div_le_div_right (hpastSec r hr)
  have hsize : stockRateMinBuckets ≤ 2 ^ 64 := by simp [stockRateMinBuckets]
  have hwindow : ∀ window, window ≤ 1440 → sumMinWindow (records.foldl stockRateRecord .zero) (now.toNat / 60) window =
      eventsOf records (now.toNat / 60 < ·.minute + window) := by
    intro window hle
    rw [foldl_stockRateRecord]
    exact sumWindow_eq hminutes hpastMin hfew hminute hsize hle
  have hlastMinute : sumSecWindow (records.foldl stockRateRecord .zero) now.toNat 60 =
      eventsOf records (now.toNat < ·.second + 60) := by
    rw [foldl_stockRateRecord]
    exact sumWindow_eq hseconds hpastSec hfewSec hlt (by simp [stockRateSecBuckets]) le_rfl
  rw [stockRateWindows, stockRateSecBuckets, stockRateMinBuckets, hlastMinute, hwindow 60 (by decide), hwindow 1440 le_rfl]

/-- Five events, and seven more after eighty seconds: only the last ones are in the window of a minute. -/
theorem stockRateWindows_exact_gap :
    stockRateWindows ([⟨5, 1000⟩, ⟨7, 1080⟩].foldl stockRateRecord .zero) 1080 = (7, 12, 12) := by
  have hfew : ∀ m, eventsOf [⟨5, 1000⟩, ⟨7, 1080⟩] (·.minute = m) < 2 ^ 32 := by
    intro m
    have h : eventsOf [⟨5, 1000⟩, ⟨7, 1080⟩] (·.minute = m) ≤ eventsOf [⟨5, 1000⟩, ⟨7, 1080⟩] fun _ => True :=
      eventsOf_mono fun _ _ => trivial
    exact Nat.lt_of_le_of_lt h (by decide)
  rw [stockRateWindows_exact _ _ (by decide) (by decide) hfew]
  decide
