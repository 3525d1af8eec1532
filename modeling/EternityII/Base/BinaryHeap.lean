-- SUMMARY: A binary heap in a list: moving an entry down, building the heap, and its root, which is first.
import Mathlib.Data.List.Basic
import Mathlib.Logic.Function.Basic
import Mathlib.Tactic.Common

/-!
# Binary heaps

The entries of a list are the nodes of a tree: those below entry `p` are `2 * p + 1` and `2 * p + 2`.
An entry that is out of order is exchanged with the first of the two below it, and so on down. Moving
down one entry after the other, from the last one that has any below it, makes a heap of a list, and
nothing comes before the root of a heap.
-/

namespace BinaryHeap

variable {σ : Type*}

/-! ## The operations -/

section Operations

variable (less : σ → σ → Bool)

/-- Entry `a` is in the list and comes before entry `b`. -/
def lessAt (h : List σ) (a b : Nat) : Bool :=
  match h[a]?, h[b]? with
  | some x, some y => less x y
  | _, _ => false

/-- Entry `a` if it comes before entry `m`, else `m`. -/
def earlier (h : List σ) (a m : Nat) : Nat := if lessAt less h a m then a else m

/-- The first of entry `i` and the two below it. -/
def first (h : List σ) (i : Nat) : Nat := earlier less h (2 * i + 2) (earlier less h (2 * i + 1) i)

/-- Two entries exchanged. -/
def exchange (h : List σ) (i m : Nat) : List σ :=
  match h[i]?, h[m]? with
  | some x, some y => (h.set i y).set m x
  | _, _ => h

/-- An entry is moved down, for so many exchanges at most. -/
def down : Nat → List σ → Nat → List σ
  | 0, h, _ => h
  | fuel + 1, h, i =>
    let m := first less h i
    if m = i then h else down fuel (exchange h i m) m

/-- The entries below `i` are moved down, the last one first. -/
def build : Nat → List σ → List σ
  | 0, h => h
  | i + 1, h => build i (down less h.length h i)

/-- The last entry takes the place of the root. -/
def dropRoot : List σ → List σ
  | [] => []
  | _ :: rest => rest.getLast?.toList ++ rest.dropLast

end Operations

/-! ## Exchanging entries -/

section Exchange

variable {less : σ → σ → Bool} {h : List σ} {i m : Nat}

theorem getElem?_exchange {x y : σ} (hi : h[i]? = some x) (hm : h[m]? = some y) (j : Nat) :
    (exchange h i m)[j]? = if j = m then some x else if j = i then some y else h[j]? := by
  obtain ⟨hilt, -⟩ := List.getElem?_eq_some_iff.mp hi
  obtain ⟨hmlt, -⟩ := List.getElem?_eq_some_iff.mp hm
  unfold exchange
  rw [hi, hm]
  dsimp only
  rw [List.getElem?_set, List.length_set, List.getElem?_set]
  by_cases hjm : j = m
  · rw [if_pos hjm.symm, if_pos (by omega), if_pos hjm]
  · rw [if_neg (Ne.symm hjm), if_neg hjm]
    by_cases hji : j = i
    · rw [if_pos hji.symm, if_pos hilt, if_pos hji]
    · rw [if_neg (Ne.symm hji), if_neg hji]

theorem exchange_perm (h : List σ) (i m : Nat) : (exchange h i m).Perm h := by
  unfold exchange
  split
  · rename_i x y hi hm
    obtain ⟨hilt, rfl⟩ := List.getElem?_eq_some_iff.mp hi
    obtain ⟨hmlt, rfl⟩ := List.getElem?_eq_some_iff.mp hm
    exact List.set_set_perm hilt hmlt
  · exact List.Perm.refl _

theorem lessAt_lt {a b : Nat} (hless : lessAt less h a b = true) : a < h.length ∧ b < h.length := by
  unfold lessAt at hless
  split at hless
  · rename_i ha hb
    exact ⟨(List.getElem?_eq_some_iff.mp ha).1, (List.getElem?_eq_some_iff.mp hb).1⟩
  · cases hless

theorem earlier_cases (less : σ → σ → Bool) (h : List σ) (a m : Nat) :
    earlier less h a m = m ∨ earlier less h a m = a ∧ a < h.length ∧ m < h.length := by
  unfold earlier
  split
  · rename_i hless
    exact .inr ⟨rfl, lessAt_lt hless⟩
  · exact .inl rfl

/-- The first entry is `i` or one of the two below it. -/
theorem first_cases (less : σ → σ → Bool) (h : List σ) (i : Nat) : first less h i = i ∨
    (first less h i = 2 * i + 1 ∨ first less h i = 2 * i + 2) ∧ first less h i < h.length ∧ i < h.length := by
  unfold first
  obtain hright | ⟨hright, hlt, hlt'⟩ := earlier_cases less h (2 * i + 2) (earlier less h (2 * i + 1) i)
  · rw [hright]
    obtain hleft | ⟨hleft, hlt⟩ := earlier_cases less h (2 * i + 1) i
    · exact .inl hleft
    · exact .inr ⟨.inl hleft, by rw [hleft]; exact hlt⟩
  · rw [hright]
    refine .inr ⟨.inr rfl, hlt, ?_⟩
    obtain hleft | ⟨hleft, hlt⟩ := earlier_cases less h (2 * i + 1) i
    · exact hleft ▸ hlt'
    · exact hlt.2

theorem down_perm (fuel : Nat) (h : List σ) (i : Nat) : (down less fuel h i).Perm h := by
  induction fuel generalizing h i with
  | zero => exact List.Perm.refl _
  | succ fuel ih =>
    unfold down
    dsimp only
    split
    · exact List.Perm.refl _
    · exact (ih _ _).trans (exchange_perm h i _)

theorem build_perm (n : Nat) (h : List σ) : (build less n h).Perm h := by
  induction n generalizing h with
  | zero => exact List.Perm.refl _
  | succ n ih => exact (ih _).trans (down_perm _ h n)

theorem dropRoot_perm (s : σ) (rest : List σ) : (dropRoot (s :: rest)).Perm rest := by
  cases hlast : rest.getLast? with
  | none =>
    obtain rfl := List.getLast?_eq_none_iff.mp hlast
    exact List.Perm.refl _
  | some last =>
    have hrest : rest.dropLast ++ [last] = rest := List.dropLast_append_getLast? last hlast
    have hroot : dropRoot (s :: rest) = [last] ++ rest.dropLast := by simp [dropRoot, hlast]
    rw [hroot]
    exact List.perm_append_comm.trans (List.Perm.of_eq hrest)

end Exchange

/-! ## The order of a heap -/

/-- From entry `k` on no entry comes before the one above it. -/
def Heaped (r : σ → σ → Prop) (k : Nat) (h : List σ) : Prop :=
  ∀ p c x y, k ≤ p → (c = 2 * p + 1 ∨ c = 2 * p + 2) → h[p]? = some x → h[c]? = some y → r x y

/-- The order is right from entry `k` on but for the entries below entry `i`, and these could stand in
its place. -/
structure HeapedBut (r : σ → σ → Prop) (k i : Nat) (h : List σ) : Prop where
  others : ∀ p c x y, k ≤ p → p ≠ i → (c = 2 * p + 1 ∨ c = 2 * p + 2) → h[p]? = some x → h[c]? = some y → r x y
  below : ∀ p c x y, k ≤ p → (i = 2 * p + 1 ∨ i = 2 * p + 2) → (c = 2 * i + 1 ∨ c = 2 * i + 2) →
    h[p]? = some x → h[c]? = some y → r x y

section Order

variable {less : σ → σ → Bool} {r : σ → σ → Prop} {h : List σ} {i k : Nat}

/-- A heap from its second entry on is one but for what is below the first. -/
theorem Heaped.but (hh : Heaped r (k + 1) h) : HeapedBut r k k h where
  others := fun p c x y hp hne => hh p c x y (by omega)
  below := fun p c x y hp hi => by omega

variable (hrefl : ∀ x, r x x) (htrans : ∀ x y z, r x y → r y z → r x z)
  (hless : ∀ x y, less x y = true → r x y) (hnot : ∀ x y, less x y = false → r y x)

include hrefl hless hnot in
/-- The earlier of two entries is before both. -/
theorem earlier_le {a m : Nat} {x y : σ} (hx : h[earlier less h a m]? = some x) (hm : m < h.length)
    (hy : h[a]? = some y ∨ h[m]? = some y) : r x y := by
  have hz : h[m]? = some h[m] := List.getElem?_eq_getElem hm
  cases hless' : lessAt less h a m with
  | true =>
    have hearlier : earlier less h a m = a := if_pos hless'
    rw [hearlier] at hx
    unfold lessAt at hless'
    rw [hx, hz] at hless'
    obtain hy | hy := hy
    · obtain rfl := Option.some.inj (hx.symm.trans hy)
      exact hrefl x
    · obtain rfl := Option.some.inj (hz.symm.trans hy)
      exact hless _ _ hless'
  | false =>
    have hearlier : earlier less h a m = m := if_neg (by simp [hless'])
    rw [hearlier] at hx
    obtain hy | hy := hy
    · unfold lessAt at hless'
      rw [hy, hx] at hless'
      exact hnot _ _ hless'
    · obtain rfl := Option.some.inj (hx.symm.trans hy)
      exact hrefl x

include hrefl htrans hless hnot in
/-- The first entry is before `i` and both entries below it. -/
theorem first_le {x y : σ} (hi : i < h.length) (hx : h[first less h i]? = some x) {c : Nat}
    (hc : c = i ∨ c = 2 * i + 1 ∨ c = 2 * i + 2) (hy : h[c]? = some y) : r x y := by
  have hm : earlier less h (2 * i + 1) i < h.length := by
    unfold earlier
    split
    · rename_i hleft
      exact (lessAt_lt hleft).1
    · exact hi
  have hmid : h[earlier less h (2 * i + 1) i]? = some (h[earlier less h (2 * i + 1) i]) := List.getElem?_eq_getElem hm
  have hxmid := earlier_le hrefl hless hnot hx hm (.inr hmid)
  obtain rfl | rfl | rfl := hc
  · exact htrans _ _ _ hxmid (earlier_le hrefl hless hnot hmid hi (.inr hy))
  · exact htrans _ _ _ hxmid (earlier_le hrefl hless hnot hmid hi (.inl hy))
  · exact earlier_le hrefl hless hnot hx hm (.inl hy)

include hrefl htrans hless hnot in
/-- Moving an entry down puts the order right below it. -/
theorem heaped_down {fuel : Nat} (hh : HeapedBut r k i h) (hk : k ≤ i) (hfuel : h.length ≤ fuel + i) :
    Heaped r k (down less fuel h i) := by
  induction fuel generalizing h i with
  | zero =>
    intro p c x y hp hc hx hy
    have hclt := (List.getElem?_eq_some_iff.mp hy).1
    exact hh.others p c x y hp (by simp [down] at hclt; omega) hc hx hy
  | succ fuel ih =>
    unfold down
    dsimp only
    split
    · rename_i hstop
      intro p c x y hp hc hx hy
      by_cases hpi : p = i
      · subst hpi
        have hlt := (List.getElem?_eq_some_iff.mp hx).1
        rw [← hstop] at hx
        exact first_le hrefl htrans hless hnot hlt hx (by omega) hy
      · exact hh.others p c x y hp hpi hc hx hy
    · rename_i hgo
      obtain hstop | ⟨hbelow, hmlt, hilt⟩ := first_cases less h i
      · exact absurd hstop hgo
      have hxi : h[i]? = some h[i] := List.getElem?_eq_getElem hilt
      have hxm : h[first less h i]? = some h[first less h i] := List.getElem?_eq_getElem hmlt
      have hmin : ∀ c y, (c = i ∨ c = 2 * i + 1 ∨ c = 2 * i + 2) → h[c]? = some y → r h[first less h i] y :=
        fun c y hc hy => first_le hrefl htrans hless hnot hilt hxm hc hy
      generalize first less h i = m at *
      have hget := getElem?_exchange hxi hxm
      have hlen : (exchange h i m).length = h.length := (exchange_perm h i m).length_eq
      refine ih ⟨fun p c x y hp hpm hc hx hy => ?_, fun p c x y hp hpm hc hx hy => ?_⟩ (by omega) (by omega)
      · rw [hget, if_neg hpm] at hx
        by_cases hpi : p = i
        · -- The entry that has come up is before the other one below, and before what went down.
          rw [if_pos hpi] at hx
          obtain rfl := Option.some.inj hx
          rw [hget] at hy
          by_cases hcm : c = m
          · rw [if_pos hcm] at hy
            obtain rfl := Option.some.inj hy
            exact hmin i _ (.inl rfl) hxi
          · rw [if_neg hcm, if_neg (by omega)] at hy
            exact hmin c _ (by omega) hy
        · rw [if_neg hpi] at hx
          rw [hget, if_neg (by omega)] at hy
          by_cases hci : c = i
          · rw [if_pos hci] at hy
            obtain rfl := Option.some.inj hy
            exact hh.below p m x _ hp (by omega) hbelow hx hxm
          · rw [if_neg hci] at hy
            exact hh.others p c x y hp hpi hc hx hy
      · obtain rfl : p = i := by omega
        rw [hget, if_neg (by omega), if_pos rfl] at hx
        obtain rfl := Option.some.inj hx
        rw [hget, if_neg (by omega), if_neg (by omega)] at hy
        exact hh.others m c _ y (by omega) (by omega) hc hxm hy

include hrefl htrans hless hnot in
theorem heaped_build {n : Nat} (hh : Heaped r n h) : Heaped r 0 (build less n h) := by
  induction n generalizing h with
  | zero => exact hh
  | succ n ih => exact ih (heaped_down hrefl htrans hless hnot hh.but (Nat.le_refl n) (Nat.le_add_right _ _))

/-- Nothing is below the second half of a list. -/
theorem heaped_half (r : σ → σ → Prop) (h : List σ) : Heaped r (h.length / 2) h := by
  intro p c x y hp hc hx hy
  have hclt := (List.getElem?_eq_some_iff.mp hy).1
  omega

include hrefl htrans in
/-- Nothing comes before the root of a heap. -/
theorem Heaped.root_le {s : σ} {rest : List σ} (hh : Heaped r 0 (s :: rest)) {y : σ} (hy : y ∈ s :: rest) : r s y := by
  have hat : ∀ (n : Nat) (y : σ), (s :: rest)[n]? = some y → r s y := by
    intro n
    induction n using Nat.strongRecOn with
    | _ n ih =>
      intro y hy
      obtain rfl | hn := Nat.eq_zero_or_pos n
      · obtain rfl : s = y := by simpa using hy
        exact hrefl s
      · obtain ⟨hlt, -⟩ := List.getElem?_eq_some_iff.mp hy
        have hparent : (s :: rest)[(n - 1) / 2]? = some ((s :: rest)[(n - 1) / 2]) := List.getElem?_eq_getElem (by omega)
        exact htrans _ _ _ (ih ((n - 1) / 2) (by omega) _ hparent)
          (hh ((n - 1) / 2) n _ y (Nat.zero_le _) (by omega) hparent hy)
  obtain ⟨n, hn⟩ := List.getElem?_of_mem hy
  exact hat n y hn

/-- With another root a heap is one from its second entry on. -/
theorem Heaped.replace_root {s : σ} {rest : List σ} (hh : Heaped r 0 (s :: rest)) (s' : σ) :
    Heaped r 1 (s' :: rest) := by
  intro p c x y hp hc hx hy
  obtain ⟨p, rfl⟩ := Nat.exists_eq_add_of_le' hp
  obtain ⟨c, rfl⟩ : ∃ c', c = c' + 1 := ⟨c - 1, by omega⟩
  exact hh (p + 1) (c + 1) x y (Nat.zero_le _) hc hx hy

/-- With its last entry as the root a heap is one from its second entry on. -/
theorem Heaped.drop_root {s : σ} {rest : List σ} (hh : Heaped r 0 (s :: rest)) : Heaped r 1 (dropRoot (s :: rest)) := by
  intro p c x y hp hc hx hy
  have hget : ∀ j, 1 ≤ j → ∀ z, (dropRoot (s :: rest))[j]? = some z → (s :: rest)[j]? = some z := by
    intro j hj z hz
    obtain ⟨j, rfl⟩ := Nat.exists_eq_add_of_le' hj
    cases hlast : rest.getLast? with
    | none =>
      obtain rfl := List.getLast?_eq_none_iff.mp hlast
      simp [dropRoot] at hz
    | some last =>
      have hroot : dropRoot (s :: rest) = last :: rest.dropLast := by simp [dropRoot, hlast]
      rw [hroot, List.getElem?_cons_succ, List.getElem?_dropLast] at hz
      rw [List.getElem?_cons_succ]
      split at hz
      · exact hz
      · cases hz
  exact hh p c x y (Nat.zero_le _) hc (hget p hp x hx) (hget c (by omega) y hy)

end Order

end BinaryHeap
