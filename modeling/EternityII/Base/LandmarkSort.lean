-- SUMMARY: A sort that moves elements to landmarks: it ends, and sorts.
import EternityII.Base.LinkedList
import Mathlib.Data.List.Pairwise
import Mathlib.Data.Prod.Lex
import Mathlib.Logic.Relation
import Mathlib.Order.WellFounded

/-!
# Sorting by landmarks

A scan walks over a list. The first element it meets of each level becomes the *landmark* of
that level and stays so wherever it is moved. An element above its successor is moved right
before the landmark of the next level up that has one, or to the end, and the scan goes back
one place.

The part behind the scan is always sorted, so that the list is sorted at the end. A move can put
elements out of order further ahead. The scan ends all the same: an element is *placed* when only
its own level stands between it and its target; a move places an element, and only the move of a
landmark can displace others, none of them a landmark above it.
-/

namespace LandmarkSort

variable {ι κ : Type*} [LinearOrder κ]

/-- The levels of the elements, and in their order those whose landmarks can be targets: all of
them, except possibly the highest one. -/
structure Levels (ι κ : Type*) [LinearOrder κ] where
  level : ι → κ
  marks : List κ
  sorted : marks.Pairwise (· < ·)
  top : ∀ e, level e ∈ marks ∨ ∀ f, level f ≤ level e

/-- The part behind the scan, the current element and what follows it, and the landmarks. -/
structure Scan (ι κ : Type*) where
  before : List ι
  after : List ι
  lair : κ → Option ι

/-- The landmark of the next level up, among the levels of `marks` in their order. -/
def target (L : Levels ι κ) (lair : κ → Option ι) (a : κ) : Option ι :=
  (L.marks.filter (a < ·)).findSome? lair

/-- An element becomes the landmark of its level unless there is one. -/
def register (L : Levels ι κ) (lair : κ → Option ι) (e : ι) : κ → Option ι :=
  if lair (L.level e) = none then Function.update lair (L.level e) (some e) else lair

/-- An element put right before another one of a list. -/
def placeBefore [DecidableEq ι] (e t : ι) (l : List ι) : List ι := l.takeWhile (· ≠ t) ++ e :: l.dropWhile (· ≠ t)

/-- An element put before its target, or at the end. -/
def place [DecidableEq ι] (e : ι) (t : Option ι) (l : List ι) : List ι :=
  match t with
  | none => l ++ [e]
  | some t => placeBefore e t l

/-- One turn of the scan, `none` at the end of the list. -/
def step [DecidableEq ι] (L : Levels ι κ) (s : Scan ι κ) : Option (Scan ι κ) :=
  match s.after with
  | [] => none
  | [c] => some ⟨s.before ++ [c], [], register L s.lair c⟩
  | c :: n :: rest =>
    let lair := register L (register L s.lair c) n
    if L.level c ≤ L.level n then some ⟨s.before ++ [c], n :: rest, lair⟩
    else
      let moved := place c (target L lair (L.level c)) rest
      some ⟨s.before.dropLast, s.before.getLast?.toList ++ n :: moved, lair⟩

/-! ## Landmarks and targets -/

section Target

variable {L : Levels ι κ} {lair : κ → Option ι} {a : κ} {e t : ι}

/-- Every landmark is of its level. -/
def Landmarks (L : Levels ι κ) (lair : κ → Option ι) : Prop := ∀ a t, lair a = some t → L.level t = a

theorem target_eq_some (h : target L lair a = some t) :
    ∃ b ∈ L.marks, a < b ∧ lair b = some t ∧ ∀ b' ∈ L.marks, a < b' → b' < b → lair b' = none := by
  obtain ⟨low, b, high, hsplit, ht, hlow⟩ := List.findSome?_eq_some_iff.mp h
  have hmem : ∀ b', b' ∈ low ++ b :: high ↔ b' ∈ L.marks ∧ a < b' := by
    intro b'
    rw [← hsplit, List.mem_filter, decide_eq_true_iff]
  have hsorted := L.sorted.filter fun b' => decide (a < b')
  rw [hsplit, List.pairwise_append, List.pairwise_cons] at hsorted
  obtain ⟨hb, hab⟩ := (hmem b).mp (by simp)
  refine ⟨b, hb, hab, ht, fun b' hb' hab' hlt => ?_⟩
  rcases List.mem_append.mp ((hmem b').mpr ⟨hb', hab'⟩) with hlow' | hhigh
  · exact hlow b' hlow'
  · rcases List.mem_cons.mp hhigh with rfl | hhigh
    · exact absurd hlt (lt_irrefl _)
    · exact absurd (hsorted.2.1.1 b' hhigh) hlt.asymm

theorem target_eq_none (h : target L lair a = none) : ∀ b ∈ L.marks, a < b → lair b = none := by
  intro b hb hab
  exact List.findSome?_eq_none_iff.mp h b (List.mem_filter.mpr ⟨hb, by simpa using hab⟩)

theorem register_eq_some (h : register L lair e a = some t) : lair a = some t ∨ t = e ∧ a = L.level e := by
  unfold register at h
  split at h
  · by_cases ha : a = L.level e
    · rw [ha, Function.update_self] at h
      exact .inr ⟨(Option.some.inj h).symm, ha⟩
    · rw [Function.update_of_ne ha] at h
      exact .inl h
  · exact .inl h

theorem register_self (L : Levels ι κ) (lair : κ → Option ι) (e : ι) : register L lair e (L.level e) ≠ none := by
  unfold register
  split
  · rw [Function.update_self]
    exact Option.some_ne_none e
  · assumption

theorem register_of_some (h : lair a = some t) : register L lair e a = some t := by
  unfold register
  split
  · rename_i hnone
    rw [Function.update_of_ne (fun ha => by rw [← ha, h] at hnone; cases hnone), h]
  · exact h

/-- A level that is known already keeps its landmark, and nothing changes. -/
theorem register_of_ne_none (h : lair (L.level e) ≠ none) : register L lair e = lair := if_neg h

theorem Landmarks.register (h : Landmarks L lair) (e : ι) : Landmarks L (register L lair e) := by
  intro a t ht
  rcases register_eq_some ht with ht | ⟨rfl, rfl⟩
  · exact h a t ht
  · rfl

end Target

/-! ## Placed elements -/

section Placed

variable (L : Levels ι κ) (lair : κ → Option ι)

/-- The element is the landmark of a level that can be a target. -/
def IsMark (e : ι) : Prop := L.level e ∈ L.marks ∧ lair (L.level e) = some e

/-- What follows an element that is placed: its own level up to its target, or nothing below it
when there is no target; and no landmark of its own level before that. -/
def Settled (e : ι) (rest : List ι) : Prop :=
  (∀ t, target L lair (L.level e) = some t → ∃ w y, rest = w ++ t :: y ∧
    ∀ z ∈ w, L.level z = L.level e ∧ ¬ IsMark L lair z) ∧
  (target L lair (L.level e) = none → ∀ z ∈ rest,
    L.level e ≤ L.level z ∧ (L.level z = L.level e → ¬ IsMark L lair z))

/-- The element of a list is placed. -/
def Placed (l : List ι) (e : ι) : Prop := ∃ x rest, l = x ++ e :: rest ∧ Settled L lair e rest

variable {L lair} {l u v : List ι} {c e t n : ι}

theorem settled_nil (e : ι) (h : target L lair (L.level e) = none) : Settled L lair e [] := by
  refine ⟨fun t ht => ?_, fun _ z hz => absurd hz (by simp)⟩
  rw [h] at ht
  cases ht

theorem settled_target (h : target L lair (L.level e) = some t) (y : List ι) :
    Settled L lair e (t :: y) := by
  refine ⟨fun t' ht' => ?_, fun hnone => ?_⟩
  · rw [h] at ht'
    cases ht'
    exact ⟨[], y, rfl, fun z hz => absurd hz (by simp)⟩
  · rw [h] at hnone
    cases hnone

/-- A target is a landmark. -/
theorem isMark_target (hlair : Landmarks L lair)
    (h : target L lair (L.level c) = some t) : IsMark L lair t ∧ L.level c < L.level t := by
  obtain ⟨b, hb, hcb, ht, -⟩ := target_eq_some h
  obtain rfl := hlair b t ht
  exact ⟨⟨hb, ht⟩, hcb⟩

theorem Settled.remove (h : Settled L lair e (u ++ c :: v))
    (hc : target L lair (L.level e) ≠ some c) : Settled L lair e (u ++ v) := by
  obtain ⟨hsome, hnone⟩ := h
  refine ⟨fun t ht => ?_, fun htarget z hz => hnone htarget z ?_⟩
  · obtain ⟨w, y, heq, hw⟩ := hsome t ht
    rcases List.append_eq_split heq with ⟨w', rfl, -⟩ | ⟨w', rfl, hw'⟩
    · exact ⟨w, w' ++ v, by simp, hw⟩
    · cases w' with
      | nil =>
        obtain ⟨rfl, -⟩ := List.cons.inj hw'
        exact absurd ht hc
      | cons _ w' =>
        obtain ⟨rfl, rfl⟩ := List.cons.inj hw'
        refine ⟨u ++ w', y, by simp, fun z hz => hw z ?_⟩
        rcases List.mem_append.mp hz with hz | hz
        · exact List.mem_append_left _ hz
        · exact List.mem_append_right _ (List.mem_cons_of_mem _ hz)
  · rcases List.mem_append.mp hz with hz | hz
    · exact List.mem_append_left _ hz
    · exact List.mem_append_right _ (List.mem_cons_of_mem _ hz)

theorem Settled.insert (hlair : Landmarks L lair)
    (ht : target L lair (L.level c) = some t) (h : Settled L lair e (u ++ t :: v))
    (hc : target L lair (L.level e) = some t → L.level c = L.level e ∧ ¬ IsMark L lair c) :
    Settled L lair e (u ++ c :: t :: v) := by
  obtain ⟨hmark, -⟩ := isMark_target hlair ht
  obtain ⟨hsome, hnone⟩ := h
  refine ⟨fun s hs => ?_, fun htarget => ?_⟩
  · obtain ⟨w, y, heq, hw⟩ := hsome s hs
    rcases List.append_eq_split heq with ⟨w', rfl, -⟩ | ⟨w', rfl, hw'⟩
    · exact ⟨w, w' ++ c :: t :: v, by simp, hw⟩
    · cases w' with
      | nil =>
        obtain ⟨rfl, rfl⟩ := List.cons.inj hw'
        refine ⟨u ++ [c], v, by simp, fun z hz => ?_⟩
        rcases List.mem_append.mp hz with hz | hz
        · exact hw z (by simpa using hz)
        · obtain rfl := List.mem_singleton.mp hz
          exact hc hs
      | cons _ w' =>
        -- The target is not below its own landmark.
        obtain ⟨rfl, -⟩ := List.cons.inj hw'
        exact absurd hmark (hw t (by simp)).2
  · -- The element has no target, but the landmark that `c` goes to is above it.
    obtain ⟨hle, hlevel⟩ := hnone htarget t (by simp)
    have hlt : L.level e < L.level t := lt_of_le_of_ne hle fun heq => hlevel heq.symm hmark
    have hnone := target_eq_none htarget (L.level t) hmark.1 hlt
    rw [hmark.2] at hnone
    cases hnone

theorem Settled.append {rest : List ι} (h : Settled L lair e rest)
    (hc : target L lair (L.level e) = none →
      L.level e ≤ L.level c ∧ (L.level c = L.level e → ¬ IsMark L lair c)) :
    Settled L lair e (rest ++ [c]) := by
  obtain ⟨hsome, hnone⟩ := h
  refine ⟨fun t ht => ?_, fun htarget z hz => ?_⟩
  · obtain ⟨w, y, rfl, hw⟩ := hsome t ht
    exact ⟨w, y ++ [c], by simp, hw⟩
  · rcases List.mem_append.mp hz with hz | hz
    · exact hnone htarget z hz
    · obtain rfl := List.mem_singleton.mp hz
      exact hc htarget

/-- What lets the move of an element leave another one placed: the levels of both have landmarks,
the other one is not above all marks unless the element is, and a landmark that moves is below the
other element. -/
structure Undisturbed (L : Levels ι κ) (lair : κ → Option ι) (c e : ι) : Prop where
  ne : e ≠ c
  known : L.level c ∈ L.marks → lair (L.level c) ≠ none
  known' : L.level e ∈ L.marks → lair (L.level e) ≠ none
  within : L.level e ∈ L.marks ∨ L.level c ∉ L.marks
  mark : IsMark L lair c → L.level c < L.level e

theorem Undisturbed.not_isMark (h : Undisturbed L lair c e) (heq : L.level c = L.level e) :
    ¬ IsMark L lair c := by
  intro hmark
  exact absurd (h.mark hmark) (heq ▸ lt_irrefl _)

theorem Undisturbed.target_ne (h : Undisturbed L lair c e)
    (hlair : Landmarks L lair) : target L lair (L.level e) ≠ some c := by
  intro htarget
  obtain ⟨hmark, hlt⟩ := isMark_target hlair htarget
  exact absurd (h.mark hmark) hlt.asymm

theorem Levels.mem_marks (h : L.level e < L.level t) : L.level e ∈ L.marks :=
  (L.top e).resolve_right fun htop => absurd (htop t) h.not_ge

/-- Elements with the same target are of the same level. -/
theorem Undisturbed.level_eq (h : Undisturbed L lair c e) (hlair : Landmarks L lair)
    (hc : target L lair (L.level c) = some t) (he : target L lair (L.level e) = some t) :
    L.level c = L.level e := by
  obtain ⟨b, -, hcb, ht, hbetween⟩ := target_eq_some hc
  obtain ⟨b', -, heb, ht', hbetween'⟩ := target_eq_some he
  obtain rfl := hlair b t ht
  obtain rfl := hlair b' t ht'
  rcases lt_trichotomy (L.level c) (L.level e) with hlt | heq | hgt
  · have hmem := Levels.mem_marks heb
    exact absurd (hbetween (L.level e) hmem hlt heb) (h.known' hmem)
  · exact heq
  · have hmem := Levels.mem_marks hcb
    exact absurd (hbetween' (L.level c) hmem hgt hcb) (h.known hmem)

/-- An element without a target is not above one that moves to the end. -/
theorem Undisturbed.level_le (h : Undisturbed L lair c e) (hc : target L lair (L.level c) = none) :
    L.level e ≤ L.level c := by
  by_contra hle
  have hlt := lt_of_not_ge hle
  rcases h.within with hmem | hnot
  · exact h.known' hmem (target_eq_none hc (L.level e) hmem hlt)
  · exact hnot (Levels.mem_marks hlt)

theorem placeBefore_eq [DecidableEq ι] (ht : t ∉ u) : placeBefore e t (u ++ t :: v) = u ++ e :: t :: v := by
  have htake : ∀ x ∈ u, decide (x ≠ t) = true := fun x hx => decide_eq_true fun heq => ht (heq ▸ hx)
  unfold placeBefore
  rw [List.takeWhile_append_of_pos htake, List.dropWhile_append_of_pos htake]
  simp

theorem Placed.remove (h : Placed L lair (u ++ c :: v) e) (hne : e ≠ c)
    (hc : target L lair (L.level e) ≠ some c) : Placed L lair (u ++ v) e := by
  obtain ⟨x, rest, heq, hrest⟩ := h
  rcases List.append_eq_split heq with ⟨w, rfl, rfl⟩ | ⟨w, rfl, hw⟩
  · exact ⟨x, w ++ v, by simp, hrest.remove hc⟩
  · cases w with
    | nil => exact absurd (List.cons.inj hw).1.symm hne
    | cons _ w =>
      obtain ⟨rfl, rfl⟩ := List.cons.inj hw
      exact ⟨u ++ w, rest, by simp, hrest⟩

theorem Placed.insert (hlair : Landmarks L lair) (ht : target L lair (L.level c) = some t)
    (h : Placed L lair (u ++ t :: v) e) (hundisturbed : Undisturbed L lair c e) :
    Placed L lair (u ++ c :: t :: v) e := by
  obtain ⟨x, rest, heq, hrest⟩ := h
  rcases List.append_eq_split heq with ⟨w, rfl, rfl⟩ | ⟨w, rfl, hw⟩
  · refine ⟨x, w ++ c :: t :: v, by simp, hrest.insert hlair ht fun he => ?_⟩
    have hlevel := hundisturbed.level_eq hlair ht he
    exact ⟨hlevel, hundisturbed.not_isMark hlevel⟩
  · exact ⟨u ++ c :: w, rest, by rw [hw]; simp, hrest⟩

theorem Placed.append (hc : target L lair (L.level c) = none) (h : Placed L lair l e)
    (hundisturbed : Undisturbed L lair c e) : Placed L lair (l ++ [c]) e := by
  obtain ⟨x, rest, rfl, hrest⟩ := h
  exact ⟨x, rest ++ [c], by simp, hrest.append fun _ => ⟨hundisturbed.level_le hc, hundisturbed.not_isMark⟩⟩

/-- The move of an element leaves those placed that it does not disturb. -/
theorem Placed.place [DecidableEq ι] (hlair : Landmarks L lair) (hmem : ∀ t, target L lair (L.level c) = some t → t ∈ v)
    (h : Placed L lair (u ++ c :: v) e) (hundisturbed : Undisturbed L lair c e) :
    Placed L lair (u ++ place c (target L lair (L.level c)) v) e := by
  have hremoved := h.remove hundisturbed.ne (hundisturbed.target_ne hlair)
  cases htarget : target L lair (L.level c) with
  | none =>
    show Placed L lair (u ++ (v ++ [c])) e
    rw [← List.append_assoc]
    exact hremoved.append htarget hundisturbed
  | some t =>
    obtain ⟨v₁, v₂, rfl, ht⟩ := List.eq_append_cons_of_mem (hmem t htarget)
    show Placed L lair (u ++ placeBefore c t (v₁ ++ t :: v₂)) e
    rw [placeBefore_eq ht, ← List.append_assoc]
    rw [← List.append_assoc] at hremoved
    exact hremoved.insert hlair htarget hundisturbed

/-- An element that has been moved is placed. -/
theorem placed_place [DecidableEq ι] (hmem : ∀ t, target L lair (L.level c) = some t → t ∈ v) :
    Placed L lair (u ++ place c (target L lair (L.level c)) v) c := by
  cases htarget : target L lair (L.level c) with
  | none => exact ⟨u ++ v, [], by simp [LandmarkSort.place], settled_nil c htarget⟩
  | some t =>
    obtain ⟨v₁, v₂, rfl, ht⟩ := List.eq_append_cons_of_mem (hmem t htarget)
    refine ⟨u ++ v₁, t :: v₂, ?_, settled_target htarget v₂⟩
    show u ++ placeBefore c t (v₁ ++ t :: v₂) = _
    rw [placeBefore_eq ht, List.append_assoc]

/-- An element above its successor is not placed. -/
theorem not_placed (hlair : Landmarks L lair) (hnodup : (u ++ c :: n :: v).Nodup) (hlt : L.level n < L.level c) :
    ¬ Placed L lair (u ++ c :: n :: v) c := by
  rintro ⟨x, rest, heq, hsome, hnone⟩
  have hout : c ∉ u ∧ c ∉ n :: v := by
    obtain ⟨-, hright, hdisjoint⟩ := List.nodup_append.mp hnodup
    exact ⟨fun hc => hdisjoint c hc c List.mem_cons_self rfl, (List.nodup_cons.mp hright).1⟩
  obtain ⟨-, -, rfl⟩ := (List.append_cons_inj_of_notMem hout.1 hout.2).mp heq
  cases htarget : target L lair (L.level c) with
  | none => exact absurd (hnone htarget n List.mem_cons_self).1 hlt.not_ge
  | some t =>
    obtain ⟨w, y, hw, hlevel⟩ := hsome t htarget
    cases w with
    | nil =>
      obtain ⟨rfl, -⟩ := List.cons.inj hw
      exact absurd (isMark_target hlair htarget).2 hlt.asymm
    | cons _ w =>
      obtain ⟨rfl, -⟩ := List.cons.inj hw
      exact absurd (hlevel n List.mem_cons_self).1 hlt.ne

end Placed

/-! ## The scan -/

section Scan

variable {L : Levels ι κ} {lair : κ → Option ι} {s s' : Scan ι κ} {l before rest v : List ι} {c n e t : ι}

/-- The list as the scan leaves it. -/
def Scan.list (s : Scan ι κ) : List ι := s.before ++ s.after

/-- The elements up to the current one are sorted, and the landmarks are elements. -/
structure Scan.Inv (L : Levels ι κ) (l : List ι) (s : Scan ι κ) : Prop where
  perm : s.list.Perm l
  nodup : s.list.Nodup
  sorted : (s.before ++ s.after.take 1).Pairwise fun e f => L.level e ≤ L.level f
  landmarks : Landmarks L s.lair
  lair : ∀ a t, s.lair a = some t → t ∈ s.list

theorem dropLast_append_toList (l : List ι) : l.dropLast ++ l.getLast?.toList = l := by
  rcases List.eq_nil_or_concat l with rfl | ⟨l, e, rfl⟩ <;> simp

omit [LinearOrder κ] in
/-- The list after a move. -/
theorem list_move {lair : κ → Option ι} {moved : List ι} :
    Scan.list (⟨before.dropLast, before.getLast?.toList ++ n :: moved, lair⟩ : Scan ι κ) = before ++ n :: moved := by
  rw [Scan.list, ← List.append_assoc, dropLast_append_toList]

variable [DecidableEq ι]

/-- How a turn of the scan ends: it moves on, or it moves the current element and goes back. -/
inductive StepCase (L : Levels ι κ) (s : Scan ι κ) : Scan ι κ → Prop
  | last {c : ι} (after : s.after = [c]) : StepCase L s ⟨s.before ++ [c], [], register L s.lair c⟩
  | forward {c n : ι} {rest : List ι} (after : s.after = c :: n :: rest) (le : L.level c ≤ L.level n) :
      StepCase L s ⟨s.before ++ [c], n :: rest, register L (register L s.lair c) n⟩
  | move {c n : ι} {rest : List ι} (after : s.after = c :: n :: rest) (lt : L.level n < L.level c) :
      StepCase L s ⟨s.before.dropLast, s.before.getLast?.toList ++ n ::
          place c (target L (register L (register L s.lair c) n) (L.level c)) rest,
        register L (register L s.lair c) n⟩

theorem step_cases (h : step L s = some s') : StepCase L s s' := by
  obtain ⟨before, after, lair⟩ := s
  unfold step at h
  dsimp only at h
  split at h
  · cases h
  · cases h
    exact .last rfl
  · rename_i c n rest
    split at h
    · rename_i hle
      cases h
      exact .forward rfl hle
    · rename_i hlt
      cases h
      exact .move rfl (lt_of_not_ge hlt)

theorem placeBefore_perm (e t : ι) (l : List ι) : (placeBefore e t l).Perm (e :: l) := by
  unfold placeBefore
  refine List.perm_middle.trans (List.Perm.cons e ?_)
  rw [List.takeWhile_append_dropWhile]

theorem place_perm (e : ι) (t : Option ι) (l : List ι) : (place e t l).Perm (e :: l) := by
  cases t with
  | none => exact List.perm_append_singleton e l
  | some t => exact placeBefore_perm e t l

theorem list_step (h : step L s = some s') : s'.list.Perm s.list := by
  obtain ⟨before, after, lair⟩ := s
  cases step_cases h with
  | last after =>
    cases after
    simp [Scan.list]
  | forward after le =>
    cases after
    simp [Scan.list]
  | move after lt =>
    cases after
    rw [list_move]
    refine List.Perm.append_left _ (((place_perm _ _ _).cons _).trans ?_)
    exact List.Perm.swap ..

omit [DecidableEq ι] in
theorem Scan.Inv.register_mem (h : s.Inv L l) (hc : c ∈ s.list) (hn : n ∈ s.list) {a : κ}
    (ht : register L (register L s.lair c) n a = some t) : t ∈ s.list := by
  rcases register_eq_some ht with ht | ⟨rfl, -⟩
  · rcases register_eq_some ht with ht | ⟨rfl, -⟩
    · exact h.lair a t ht
    · exact hc
  · exact hn

omit [DecidableEq ι] in
/-- The target of an element that has to move is further on. -/
theorem Scan.Inv.target_mem (h : s.Inv L l) (hafter : s.after = c :: n :: rest) (hlt : L.level n < L.level c)
    (ht : target L (register L (register L s.lair c) n) (L.level c) = some t) : t ∈ rest := by
  obtain ⟨⟨-, hlair⟩, hct⟩ := isMark_target ((h.landmarks.register c).register n) ht
  have hsorted := h.sorted
  have hmem := h.register_mem (c := c) (n := n) (by simp [Scan.list, hafter]) (by simp [Scan.list, hafter]) hlair
  rw [hafter, List.take_succ_cons, List.take_zero, List.pairwise_append] at hsorted
  rw [Scan.list, hafter, List.mem_append, List.mem_cons, List.mem_cons] at hmem
  rcases hmem with hbefore | rfl | rfl | hrest
  · exact absurd hct (hsorted.2.2 t hbefore c List.mem_cons_self).not_gt
  · exact absurd hct (lt_irrefl _)
  · exact absurd hct hlt.asymm
  · exact hrest

theorem inv_step (h : s.Inv L l) (hstep : step L s = some s') : s'.Inv L l := by
  have hlist := list_step hstep
  have hsorted := h.sorted
  cases step_cases hstep with
  | @last c after =>
    rw [after] at hsorted
    refine ⟨hlist.trans h.perm, hlist.nodup_iff.mpr h.nodup, by simpa using hsorted, h.landmarks.register c,
      fun a t ht => hlist.mem_iff.mpr ?_⟩
    rcases register_eq_some ht with ht | ⟨rfl, -⟩
    · exact h.lair a t ht
    · simp [Scan.list, after]
  | @forward c n rest after le =>
    rw [after, List.take_succ_cons, List.take_zero] at hsorted
    refine ⟨hlist.trans h.perm, hlist.nodup_iff.mpr h.nodup, ?_, (h.landmarks.register c).register n,
      fun a t ht => hlist.mem_iff.mpr (h.register_mem (by simp [Scan.list, after]) (by simp [Scan.list, after]) ht)⟩
    rw [List.take_succ_cons, List.take_zero, List.pairwise_append]
    refine ⟨hsorted, List.pairwise_singleton _ _, fun x hx y hy => ?_⟩
    obtain rfl := List.mem_singleton.mp hy
    rcases List.mem_append.mp hx with hx | hx
    · exact ((List.pairwise_append.mp hsorted).2.2 x hx c List.mem_cons_self).trans le
    · obtain rfl := List.mem_singleton.mp hx
      exact le
  | @move c n rest after lt =>
    refine ⟨hlist.trans h.perm, hlist.nodup_iff.mpr h.nodup, ?_, (h.landmarks.register c).register n,
      fun a t ht => hlist.mem_iff.mpr (h.register_mem (by simp [Scan.list, after]) (by simp [Scan.list, after]) ht)⟩
    have hbefore := (List.pairwise_append.mp hsorted).1
    rcases List.eq_nil_or_concat s.before with hnil | ⟨b, p, hconcat⟩
    · rw [hnil]
      exact List.pairwise_singleton _ _
    · rw [hconcat] at hbefore ⊢
      simpa using hbefore

end Scan

/-! ## The end of the scan -/

section Weigh

variable {p p' : κ → Prop} [DecidablePred p] [DecidablePred p'] {bs : List κ} {d : κ}

/-- The number written by the levels that have a property, the highest level first. -/
def weigh (p : κ → Prop) [DecidablePred p] : List κ → ℕ
  | [] => 0
  | b :: bs => (if p b then 1 else 0) + 2 * weigh p bs

omit [LinearOrder κ] in
theorem weigh_le (h : ∀ b ∈ bs, p' b → p b) : weigh p' bs ≤ weigh p bs := by
  induction bs with
  | nil => rfl
  | cons b bs ih =>
    have hrest := ih fun b' hb' => h b' (List.mem_cons_of_mem b hb')
    have hb := h b List.mem_cons_self
    unfold weigh
    split_ifs <;> first | omega | (exfalso; tauto)

/-- A level that loses the property outweighs all levels below it. -/
theorem weigh_lt (hsorted : bs.Pairwise (· < ·)) (hd : d ∈ bs) (hp : p d) (hp' : ¬ p' d)
    (h : ∀ b ∈ bs, d < b → p' b → p b) : weigh p' bs < weigh p bs := by
  induction bs with
  | nil => cases hd
  | cons b bs ih =>
    obtain ⟨hb, hsorted⟩ := List.pairwise_cons.mp hsorted
    unfold weigh
    rcases List.mem_cons.mp hd with rfl | hd
    · have hrest := weigh_le fun b' hb' => h b' (List.mem_cons_of_mem _ hb') (hb b' hb')
      rw [if_pos hp, if_neg hp']
      omega
    · have hrest := ih hsorted hd fun b' hb' => h b' (List.mem_cons_of_mem b hb')
      split_ifs <;> omega

end Weigh

section Count

variable {α : Type*} {p p' : α → Bool} {l l' : List α} {c : α}

theorem countP_le_of_perm (hperm : l'.Perm l) (h : ∀ e ∈ l, p' e = true → p e = true) : l'.countP p' ≤ l.countP p := by
  rw [hperm.countP_eq]
  exact List.countP_mono_left h

theorem countP_lt_of_perm (hperm : l'.Perm l) (h : ∀ e ∈ l, p' e = true → p e = true) (hc : c ∈ l) (hp : p c = true)
    (hp' : p' c = false) : l'.countP p' < l.countP p := by
  obtain ⟨u, v, rfl⟩ := List.append_of_mem hc
  rw [hperm.countP_eq, List.countP_append, List.countP_append, List.countP_cons_of_pos hp,
    List.countP_cons_of_neg (by simp [hp'])]
  have hu := List.countP_mono_left (l := u) fun e he => h e (by simp [he])
  have hv := List.countP_mono_left (l := v) fun e he => h e (by simp [he])
  omega

end Count

section Ending

open scoped Classical

variable (L : Levels ι κ) (lair : κ → Option ι) (l : List ι)

/-- The landmark of the level is not placed. -/
def Displaced (a : κ) : Prop := ∃ t, lair a = some t ∧ ¬ Placed L lair l t

/-- How many elements are of a level that has no landmark yet. -/
noncomputable def unseen : ℕ := l.countP fun e => decide (lair (L.level e) = none)

/-- How many elements of a level with a landmark are not placed. -/
noncomputable def unplaced : ℕ :=
  l.countP fun e => decide (L.level e ∈ L.marks ∧ lair (L.level e) ≠ none ∧ ¬ Placed L lair l e)

/-- How many elements above all marks are not placed. -/
noncomputable def unplacedTop : ℕ := l.countP fun e => decide (L.level e ∉ L.marks ∧ ¬ Placed L lair l e)

/-- What goes down at every turn. -/
noncomputable def measure (s : Scan ι κ) : ℕ ×ₗ ℕ ×ₗ ℕ ×ₗ ℕ ×ₗ ℕ :=
  toLex (unseen L s.lair s.list, toLex (weigh (Displaced L s.lair s.list) L.marks,
    toLex (unplaced L s.lair s.list, toLex (unplacedTop L s.lair s.list, s.after.length))))

variable {L lair l} {s s' : Scan ι κ} {l' u rest : List ι} {c n : ι}

variable (lair) in
/-- A level that becomes known is one less to be seen; and with none the landmarks are the same. -/
theorem unseen_register (hperm : l'.Perm l) (hc : c ∈ l) (hn : n ∈ l) :
    unseen L (register L (register L lair c) n) l' < unseen L lair l ∨
      unseen L (register L (register L lair c) n) l' = unseen L lair l ∧
        register L (register L lair c) n = lair ∧ lair (L.level c) ≠ none := by
  have hmono : ∀ {a}, register L (register L lair c) n a = none → lair a = none := by
    intro a ha
    by_contra hne
    obtain ⟨t, ht⟩ := Option.ne_none_iff_exists'.mp hne
    rw [register_of_some (register_of_some ht)] at ha
    cases ha
  have hlt : ∀ e ∈ l, lair (L.level e) = none → register L (register L lair c) n (L.level e) ≠ none →
      unseen L (register L (register L lair c) n) l' < unseen L lair l := by
    intro e he hnone hsome
    exact countP_lt_of_perm hperm (fun x _ hx => decide_eq_true (hmono (of_decide_eq_true hx))) he
      (decide_eq_true hnone) (decide_eq_false hsome)
  by_cases hcn : lair (L.level c) = none
  · obtain ⟨t, ht⟩ := Option.ne_none_iff_exists'.mp (register_self L lair c)
    refine .inl (hlt c hc hcn ?_)
    rw [register_of_some ht]
    exact Option.some_ne_none t
  · have hregister := register_of_ne_none (L := L) hcn
    by_cases hnn : lair (L.level n) = none
    · exact .inl (hlt n hn hnn (register_self L _ n))
    · have heq : register L (register L lair c) n = lair := by
        rw [hregister, register_of_ne_none hnn]
      rw [heq]
      exact .inr ⟨hperm.countP_eq _, rfl, hcn⟩

/-- Moving on shortens what is ahead. -/
theorem measure_forward (hunseen : unseen L s'.lair s'.list < unseen L s.lair s.list ∨
      unseen L s'.lair s'.list = unseen L s.lair s.list ∧ s'.lair = s.lair)
    (hlist : s'.list = s.list) (hafter : s'.after.length < s.after.length) : measure L s' < measure L s := by
  unfold measure
  rw [Prod.Lex.toLex_lt_toLex]
  rcases hunseen with hlt | ⟨heq, hlair⟩
  · exact .inl hlt
  · refine .inr ⟨heq, ?_⟩
    rw [hlist, hlair]
    simp only [Prod.Lex.toLex_lt_toLex]
    exact .inr ⟨trivial, .inr ⟨trivial, .inr ⟨trivial, hafter⟩⟩⟩

variable [DecidableEq ι]

theorem place_cons {o : Option ι} (h : o ≠ some n) : place c o (n :: rest) = n :: place c o rest := by
  cases o with
  | none => rfl
  | some t =>
    have hne : n ≠ t := fun heq => h (congrArg some heq.symm)
    simp [place, placeBefore, hne]

/-- A move lowers the weight of the landmarks, or leaves it and lowers the number of elements that
are not placed. -/
theorem measure_place (hlair : Landmarks L lair) (hnodup : (u ++ c :: n :: rest).Nodup)
    (hlt : L.level n < L.level c) (hknown : lair (L.level c) ≠ none)
    (hmem : ∀ t, target L lair (L.level c) = some t → t ∈ rest) (hl : l = u ++ c :: n :: rest)
    (hl' : l' = u ++ n :: place c (target L lair (L.level c)) rest) :
    weigh (Displaced L lair l') L.marks < weigh (Displaced L lair l) L.marks ∨
      weigh (Displaced L lair l') L.marks ≤ weigh (Displaced L lair l) L.marks ∧
        (unplaced L lair l' < unplaced L lair l ∨
          unplaced L lair l' ≤ unplaced L lair l ∧ unplacedTop L lair l' < unplacedTop L lair l) := by
  have hn : n ∉ rest := (List.nodup_cons.mp (List.nodup_cons.mp (List.nodup_append.mp hnodup).2.1).2).1
  have htarget : target L lair (L.level c) ≠ some n := fun heq => hn (hmem n heq)
  rw [← place_cons htarget] at hl'
  have hmem' : ∀ t, target L lair (L.level c) = some t → t ∈ n :: rest :=
    fun t ht => List.mem_cons_of_mem n (hmem t ht)
  have hperm : l'.Perm l := by
    rw [hl, hl']
    exact List.Perm.append_left u (place_perm _ _ _)
  have hc : c ∈ l := by simp [hl]
  have hnot : ¬ Placed L lair l c := hl ▸ not_placed hlair hnodup hlt
  have hplaced : Placed L lair l' c := hl' ▸ placed_place hmem'
  have hkeep : ∀ e, Undisturbed L lair c e → ¬ Placed L lair l' e → ¬ Placed L lair l e := by
    intro e hundisturbed hnot' he
    rw [hl] at he
    rw [hl'] at hnot'
    exact hnot' (he.place hlair hmem' hundisturbed)
  have hdisplaced : ∀ b ∈ L.marks, (IsMark L lair c → L.level c < b) → Displaced L lair l' b → Displaced L lair l b := by
    rintro b hb hmark ⟨t, ht, hnot'⟩
    obtain rfl := hlair b t ht
    refine ⟨t, ht, hkeep t ⟨fun heq => hnot' (heq ▸ hplaced), fun _ => hknown, fun _ => ?_, .inl hb, hmark⟩ hnot'⟩
    rw [ht]
    exact Option.some_ne_none t
  by_cases hmark : IsMark L lair c
  · refine .inl (weigh_lt L.sorted hmark.1 ⟨c, hmark.2, hnot⟩ ?_ fun b hb hlt => hdisplaced b hb fun _ => hlt)
    rintro ⟨t, ht, hnot'⟩
    obtain rfl := Option.some.inj (ht.symm.trans hmark.2)
    exact hnot' hplaced
  · have hundisturbed : ∀ e, ¬ Placed L lair l' e → (L.level e ∈ L.marks → lair (L.level e) ≠ none) →
        (L.level e ∈ L.marks ∨ L.level c ∉ L.marks) → ¬ Placed L lair l e := fun e hnot' hknown' hwithin =>
      hkeep e ⟨fun heq => hnot' (heq ▸ hplaced), fun _ => hknown, hknown', hwithin, fun h => absurd h hmark⟩ hnot'
    have hunplaced : ∀ e ∈ l, decide (L.level e ∈ L.marks ∧ lair (L.level e) ≠ none ∧ ¬ Placed L lair l' e) = true →
        decide (L.level e ∈ L.marks ∧ lair (L.level e) ≠ none ∧ ¬ Placed L lair l e) = true := by
      intro e _ he
      rw [decide_eq_true_iff] at he ⊢
      exact ⟨he.1, he.2.1, hundisturbed e he.2.2 (fun _ => he.2.1) (.inl he.1)⟩
    refine .inr ⟨weigh_le fun b hb => hdisplaced b hb fun h => absurd h hmark, ?_⟩
    by_cases hcm : L.level c ∈ L.marks
    · exact .inl (countP_lt_of_perm hperm hunplaced hc (by simp [hcm, hknown, hnot]) (by simp [hplaced]))
    · refine .inr ⟨countP_le_of_perm hperm hunplaced, countP_lt_of_perm hperm ?_ hc (by simp [hcm, hnot]) (by simp [hplaced])⟩
      intro e _ he
      rw [decide_eq_true_iff] at he ⊢
      exact ⟨he.1, hundisturbed e he.2 (fun h => absurd h he.1) (.inr hcm)⟩

theorem measure_step {l₀ : List ι} (h : s.Inv L l₀) (hstep : step L s = some s') : measure L s' < measure L s := by
  have hperm := list_step hstep
  obtain ⟨before, after, lair⟩ := s
  cases step_cases hstep with
  | @last c after =>
    cases after
    refine measure_forward ?_ (by simp [Scan.list]) (Nat.lt_succ_self 0)
    have hunseen := unseen_register (L := L) lair hperm (c := c) (n := c) (by simp [Scan.list]) (by simp [Scan.list])
    rw [register_of_ne_none (register_self L lair c)] at hunseen
    exact hunseen.imp_right fun h => ⟨h.1, h.2.1⟩
  | @forward c n rest after le =>
    cases after
    refine measure_forward ?_ (by simp [Scan.list]) (Nat.lt_succ_self _)
    exact (unseen_register _ hperm (by simp [Scan.list]) (by simp [Scan.list])).imp_right fun h => ⟨h.1, h.2.1⟩
  | @move c n rest after lt =>
    cases after
    have hmem : ∀ t, target L (register L (register L lair c) n) (L.level c) = some t → t ∈ rest :=
      fun t ht => h.target_mem rfl lt ht
    unfold measure
    rw [Prod.Lex.toLex_lt_toLex]
    rcases unseen_register (L := L) lair hperm (c := c) (n := n) (by simp [Scan.list]) (by simp [Scan.list])
      with hlt | ⟨heq, hlair, hknown⟩
    · exact .inl hlt
    · refine .inr ⟨heq, ?_⟩
      dsimp only
      rw [hlair] at hmem ⊢
      simp only [Prod.Lex.toLex_lt_toLex]
      rcases measure_place h.landmarks h.nodup lt hknown hmem rfl list_move with hlt | ⟨hle, hrest⟩
      · exact .inl hlt
      · rcases Nat.lt_or_eq_of_le hle with hlt | heq
        · exact .inl hlt
        · refine .inr ⟨heq, ?_⟩
          rcases hrest with hlt | ⟨hle, hlt⟩
          · exact .inl hlt
          · rcases Nat.lt_or_eq_of_le hle with hlt' | heq
            · exact .inl hlt'
            · exact .inr ⟨heq, .inl hlt⟩

/-- From every scan with its invariant the end is reached. -/
theorem Scan.Inv.exists_end {l₀ : List ι} (h : s.Inv L l₀) :
    ∃ s', Relation.ReflTransGen (fun a b => step L a = some b) s s' ∧ step L s' = none ∧ s'.Inv L l₀ := by
  induction hm : measure L s using WellFoundedLT.induction generalizing s with
  | _ m ih =>
    cases hstep : step L s with
    | none => exact ⟨s, .refl, hstep, h⟩
    | some s' =>
      obtain ⟨s'', hrun, hend, hinv⟩ := ih (measure L s') (hm ▸ measure_step h hstep) (inv_step h hstep) rfl
      exact ⟨s'', .head hstep hrun, hend, hinv⟩

/-- At the end the list is sorted. -/
theorem Scan.Inv.sorted_of_end {l₀ : List ι} (h : s.Inv L l₀) (hend : step L s = none) :
    s.list = s.before ∧ s.before.Pairwise fun e f => L.level e ≤ L.level f := by
  obtain ⟨before, after, lair⟩ := s
  cases after with
  | nil => exact ⟨List.append_nil _, by simpa using h.sorted⟩
  | cons c after =>
    cases after with
    | nil => cases hend
    | cons n rest =>
      unfold step at hend
      dsimp only at hend
      split at hend <;> cases hend

end Ending

end LandmarkSort
