-- SUMMARY: The lookup map of `prepare_map_part`: compartments, the packed index, the identifier masks.
import EternityII.Base.BitWords
import EternityII.Puzzle.Piece

/-!
# The lookup map

`buildBigArray` stores, for every combination of four side requirements, the rotated
pieces that satisfy it. `arena` holds all compartments end to end, `packed` holds
`offset << 16 | size` for each of them, and `bucket_id_mask` the set of identifiers of
each. The last two are built only when they fit and when memory allows, and readers fall
back to `flat`.
-/

/-- `key_part`: the colours asked for at the top, right, bottom and left. -/
structure KeyPart where
  k1 : Int
  k2 : Int
  k3 : Int
  k4 : Int
  deriving DecidableEq, Repr

namespace KeyPart

/-- The colour asked for on one side. -/
def side (key : KeyPart) : Dir → Int
  | .top => key.k1
  | .right => key.k2
  | .bottom => key.k3
  | .left => key.k4

/-- The key with given sides. -/
def ofSides (f : Dir → Int) : KeyPart := ⟨f .top, f .right, f .bottom, f .left⟩

@[simp] theorem side_ofSides (f : Dir → Int) : (ofSides f).side = f := by
  funext d; cases d <;> rfl

@[simp] theorem ofSides_side (key : KeyPart) : ofSides key.side = key := rfl

theorem side_injective : Function.Injective side := fun k k' h => by
  rw [← ofSides_side k, h, ofSides_side]

end KeyPart

/-- Which of the allocations of `buildBigArray` succeed. -/
structure MapAllocs where
  faceFrequency : Bool
  /-- The score buffer of the compartment at a given index. -/
  scores : Nat → Bool
  packed : Bool
  idMask : Bool

/-- `map_big_array`. -/
structure MapBigArray where
  sizearray : Int
  sizearrayM : Int
  flat : Nat → List PuzzlePart
  arena : Option (List PuzzlePart)
  packed : Option (Nat → Nat)
  bucketIdMask : Option (Words 64)
  idMaskWords : Nat

/-- `MAP_PACKED_FIELD_MAX`. -/
def mapPackedFieldMax : Nat := 65535

/-- `(((k1 * m + k2) * m + k3) * m + k4`, the index of a compartment. -/
def flatIndex (m : Int) (key : KeyPart) : Nat :=
  (((key.k1 * m + key.k2) * m + key.k3) * m + key.k4).toNat

/-! ## Building -/

/-- The loop `for (f = -1; f <= maxFace; f++)`. -/
def faceRange (maxFace : Int) : List Int :=
  (List.range (maxFace + 2).toNat).map fun i : Nat => (i : Int) - 1

/-- The four nested loops over `f1`, `f2`, `f3`, `f4`. -/
def faceKeys (maxFace : Int) : List KeyPart :=
  (faceRange maxFace ×ˢ faceRange maxFace ×ˢ faceRange maxFace ×ˢ faceRange maxFace).map
    fun f => ⟨f.1, f.2.1, f.2.2.1, f.2.2.2⟩

/-- `p = f; if (abs(p) != p) p = maxFace + abs(p);` on each side. -/
def KeyPart.position (maxFace : Int) (f : KeyPart) : KeyPart :=
  .ofSides fun d => if (f.side d).natAbs ≠ f.side d then maxFace + (f.side d).natAbs else f.side d

/-- The pieces left after one `search_face` for each side. -/
def compartment (apart : List PuzzlePart) (f : KeyPart) : List PuzzlePart :=
  searchFace (searchFace (searchFace (searchFace apart f.k1 (some .top)) f.k2 (some .right))
    f.k3 (some .bottom)) f.k4 (some .left)

/-- The index at which the loops over `f` store their compartment. -/
def KeyPart.index (maxFace : Int) (f : KeyPart) : Nat :=
  flatIndex (maxFace + 2) (f.position maxFace)

/-- The sorted list the loops over `f` store. -/
def buildCompartment (apart : List PuzzlePart) (maxFace : Int) (al : MapAllocs) (f : KeyPart) : List PuzzlePart :=
  let freq := if al.faceFrequency then some (computeFaceFrequency apart maxFace) else none
  sortCompartmentByExposedRarity (compartment apart f) f.side freq maxFace
    (al.scores (f.index maxFace))

/-- `result->flat` once the four loops are done. -/
def buildFlat (apart : List PuzzlePart) (maxFace : Int) (al : MapAllocs) : Nat → List PuzzlePart :=
  Memory.writeAll (fun _ => []) ((faceKeys maxFace).map fun f =>
    (f.index maxFace, buildCompartment apart maxFace al f))

/-- `entry->parts - arena`: the compartments before `idx` lie in front of it. -/
def arenaOffset (flat : Nat → List PuzzlePart) (idx : Nat) : Nat :=
  ((List.range idx).map fun i => (flat i).length).sum

/-- `map_packed_fits`. -/
def mapPackedFits (totalParts maxBucket : Nat) : Bool :=
  totalParts ≤ mapPackedFieldMax && maxBucket ≤ mapPackedFieldMax

/-- `build_packed_index`; `alloc` says whether its block could be allocated. -/
def buildPackedIndex (flat : Nat → List PuzzlePart) (arena : Option (List PuzzlePart)) (nbKeys totalParts : Nat)
    (alloc : Bool) : Option (Nat → Nat) :=
  let maxBucket := ((List.range nbKeys).map fun idx => (flat idx).length).foldl max 0
  if arena.isNone then none
  else if !mapPackedFits totalParts maxBucket then none
  else if !alloc then none
  else some fun idx =>
    let offset := if (flat idx).length > 0 then arenaOffset flat idx else 0
    offset <<< 16 ||| (flat idx).length

/-- The entries `arena[offset .. offset + size)` of a packed entry. -/
def packedParts (arena : List PuzzlePart) (entry : Nat) : List PuzzlePart :=
  (arena.drop (entry >>> 16)).take (entry &&& mapPackedFieldMax)

/-- The number of words of an identifier mask: enough for the largest identifier. -/
def idMaskWordsFor (arena : List PuzzlePart) : Nat :=
  ((arena.map PuzzlePart.id).foldl max 0 + 63) / 64

/-- The bits `build_bucket_id_mask` sets, compartment by compartment: identifier `id` of
the compartment at `offset` is bit `id - 1` of the `words` words at `offset * words`. -/
def idMaskBits (arena : List PuzzlePart) (packed : Nat → Nat) (nbKeys words : Nat) : List Nat :=
  (List.range nbKeys).flatMap fun idx =>
    ((packedParts arena (packed idx)).filter fun p => p.id > 0).map fun p =>
      (packed idx >>> 16) * words * 64 + (p.id - 1)

/-- `build_bucket_id_mask`. -/
def buildBucketIdMask (arena : Option (List PuzzlePart)) (packed : Option (Nat → Nat)) (nbKeys : Nat)
    (alloc : Bool) : Option (Words 64) × Nat :=
  match packed, arena with
  | some packed, some arena =>
    let words := idMaskWordsFor arena
    if words = 0 ∨ alloc = false then (none, 0)
    else (some ((idMaskBits arena packed nbKeys words).foldl Words.setBit Words.zero), words)
  | _, _ => (none, 0)

/-- `buildBigArray`. -/
def buildBigArray (apart : List PuzzlePart) (maxFace : Int) (al : MapAllocs) : MapBigArray :=
  let sizeBigArray := maxFace + 2
  let nbKeys := (sizeBigArray * sizeBigArray * sizeBigArray * sizeBigArray).toNat
  let flat := buildFlat apart maxFace al
  let totalParts := arenaOffset flat nbKeys
  let arena := if totalParts > 0 then some ((List.range nbKeys).flatMap flat) else none
  let packed := buildPackedIndex flat arena nbKeys totalParts al.packed
  let mask := buildBucketIdMask arena packed nbKeys al.idMask
  { sizearray := sizeBigArray
    sizearrayM := sizeBigArray - 1
    flat := flat
    arena := arena
    packed := packed
    bucketIdMask := mask.1
    idMaskWords := mask.2 }

/-- `prepare_map_part` on the output of `rotate_all_parts`. -/
def prepareMapPart {P : Puzzle} (ps : PieceSet P) (al : MapAllocs) : MapBigArray :=
  buildBigArray (rotateAllPartsList ps) (searchMaxFace (rotateAllPartsList ps)) al

/-! ## Reading -/

namespace MapBigArray

/-- `get_parts_bigarray_with_key`. -/
def getPartsBigarrayWithKey (map : MapBigArray) (key : KeyPart) : List PuzzlePart :=
  map.flat (flatIndex map.sizearray key)

/-- `map_bucket_packed`. -/
def mapBucketPacked (map : MapBigArray) (key : KeyPart) : List PuzzlePart :=
  match map.packed with
  | some packed => packedParts (map.arena.getD []) (packed (flatIndex map.sizearray key))
  | none => map.flat (flatIndex map.sizearray key)

/-- `map_bucket_id_mask`: the mask of a nonempty compartment, when there are masks. -/
def mapBucketIdMask (map : MapBigArray) (key : KeyPart) : Option (Words 64) :=
  match map.bucketIdMask, map.packed with
  | some masks, some packed =>
    let entry := packed (flatIndex map.sizearray key)
    if entry &&& mapPackedFieldMax = 0 then none
    else some fun i => masks ((entry >>> 16) * map.idMaskWords + i)
  | _, _ => none

end MapBigArray

/-! ## Indices of compartments -/

private theorem digit_lt {a b m n : Int} (ha : 0 ≤ a ∧ a < n) (hb : 0 ≤ b ∧ b < m) :
    0 ≤ a * m + b ∧ a * m + b < n * m := by
  have h₁ : 0 ≤ a * m := Int.mul_nonneg ha.1 (by omega)
  have h₂ : (a + 1) * m ≤ n * m := Int.mul_le_mul_of_nonneg_right (by omega) (by omega)
  rw [Int.add_mul] at h₂
  omega

private theorem digit_inj {a a' b b' m : Int} (hb : 0 ≤ b ∧ b < m) (hb' : 0 ≤ b' ∧ b' < m)
    (h : a * m + b = a' * m + b') : a = a' ∧ b = b' := by
  have hmod := congrArg (· % m) h
  simp only [Int.add_comm (a * m), Int.add_comm (a' * m), Int.add_mul_emod_self_right,
    Int.emod_eq_of_lt hb.1 hb.2, Int.emod_eq_of_lt hb'.1 hb'.2] at hmod
  subst hmod
  exact ⟨Int.eq_of_mul_eq_mul_right (by omega) (by omega : a * m = a' * m), rfl⟩

/-- Keys whose four sides are indices below `m`. -/
def KeyPart.InRange (m : Int) (key : KeyPart) : Prop := ∀ d, 0 ≤ key.side d ∧ key.side d < m

theorem flatIndex_lt {m : Int} {key : KeyPart} (h : key.InRange m) :
    flatIndex m key < (m * m * m * m).toNat := by
  have h₂ := digit_lt (h .top) (h .right)
  have h₃ := digit_lt h₂ (h .bottom)
  have h₄ := digit_lt h₃ (h .left)
  simp only [KeyPart.side] at h₄
  rw [flatIndex]
  omega

theorem flatIndex_inj {m : Int} {key key' : KeyPart} (h : key.InRange m) (h' : key'.InRange m)
    (heq : flatIndex m key = flatIndex m key') : key = key' := by
  have h₂ := digit_lt (h .top) (h .right)
  have h₃ := digit_lt h₂ (h .bottom)
  have h₄ := digit_lt h₃ (h .left)
  have h₂' := digit_lt (h' .top) (h' .right)
  have h₃' := digit_lt h₂' (h' .bottom)
  have h₄' := digit_lt h₃' (h' .left)
  simp only [KeyPart.side] at h₂ h₃ h₄ h₂' h₃' h₄'
  have heq : ((key.k1 * m + key.k2) * m + key.k3) * m + key.k4 =
      ((key'.k1 * m + key'.k2) * m + key'.k3) * m + key'.k4 := by
    rw [flatIndex, flatIndex] at heq
    omega
  obtain ⟨heq, e₄⟩ := digit_inj (h .left) (h' .left) heq
  obtain ⟨heq, e₃⟩ := digit_inj (h .bottom) (h' .bottom) heq
  obtain ⟨e₁, e₂⟩ := digit_inj (h .right) (h' .right) heq
  obtain ⟨k1, k2, k3, k4⟩ := key
  obtain ⟨k1', k2', k3', k4'⟩ := key'
  simp only [KeyPart.side] at e₁ e₂ e₃ e₄
  simp [e₁, e₂, e₃, e₄]

/-! ## Contents of compartments -/

/-- What a side of a map key asks of an edge colour; the joker `sizearrayM` asks for any
colour but the border's. -/
def keyAccepts (joker side face : Int) : Prop := if side = joker then face ≠ 0 else face = side

instance {joker side face : Int} : Decidable (keyAccepts joker side face) := by
  unfold keyAccepts; infer_instance

/-- The rotated pieces a key asks for. -/
def KeyPart.matching (key : KeyPart) (joker : Int) (apart : List PuzzlePart) : List PuzzlePart :=
  apart.filter fun p => Dir.all.all fun d => keyAccepts joker (key.side d) (p.face d)

theorem KeyPart.mem_matching {key : KeyPart} {joker : Int} {apart : List PuzzlePart} {p : PuzzlePart} :
    p ∈ key.matching joker apart ↔ p ∈ apart ∧ ∀ d, keyAccepts joker (key.side d) (p.face d) := by
  simp only [matching, List.mem_filter, List.all_eq_true, decide_eq_true_iff, Dir.mem_all,
    forall_const]

private theorem mem_faceRange {maxFace f : Int} : f ∈ faceRange maxFace ↔ -1 ≤ f ∧ f ≤ maxFace := by
  simp only [faceRange, List.mem_map, List.mem_range]
  refine ⟨?_, fun h => ⟨(f + 1).toNat, by omega, by omega⟩⟩
  rintro ⟨i, hi, rfl⟩
  omega

private theorem nodup_faceRange (maxFace : Int) : (faceRange maxFace).Nodup :=
  List.nodup_range.map fun i j h => by simpa using h

private theorem mem_faceKeys {maxFace : Int} {f : KeyPart} :
    f ∈ faceKeys maxFace ↔ ∀ d, -1 ≤ f.side d ∧ f.side d ≤ maxFace := by
  obtain ⟨f₁, f₂, f₃, f₄⟩ := f
  simp only [faceKeys, List.mem_map, Prod.exists, KeyPart.mk.injEq, List.mem_product, mem_faceRange]
  constructor
  · rintro ⟨_, _, _, _, ⟨h₁, h₂, h₃, h₄⟩, rfl, rfl, rfl, rfl⟩ d
    cases d <;> assumption
  · intro h
    exact ⟨_, _, _, _, ⟨h .top, h .right, h .bottom, h .left⟩, rfl, rfl, rfl, rfl⟩

private theorem nodup_faceKeys (maxFace : Int) : (faceKeys maxFace).Nodup := by
  have h := nodup_faceRange maxFace
  refine (h.product (h.product (h.product h))).map ?_
  rintro ⟨_, _, _, _⟩ ⟨_, _, _, _⟩ heq
  simpa using heq

/-- The request `f` a map key stands for: the joker index stands for `-1`. -/
private def KeyPart.request (maxFace : Int) (key : KeyPart) : KeyPart :=
  .ofSides fun d => if key.side d = maxFace + 1 then -1 else key.side d

private theorem position_side (maxFace : Int) {f : KeyPart} (h : ∀ d, -1 ≤ f.side d) (d : Dir) :
    (f.position maxFace).side d = if f.side d = -1 then maxFace + 1 else f.side d := by
  have := h d
  simp only [KeyPart.position, KeyPart.side_ofSides]
  split <;> split <;> omega

private theorem position_request {maxFace : Int} {key : KeyPart} (h : key.InRange (maxFace + 2)) :
    (key.request maxFace).position maxFace = key := by
  refine KeyPart.side_injective (funext fun d => ?_)
  have hreq : ∀ d, (key.request maxFace).side d =
      if key.side d = maxFace + 1 then -1 else key.side d := fun d => by
    rw [KeyPart.request, KeyPart.side_ofSides]
  have hd := h d
  rw [position_side maxFace (fun d => ?_), hreq]
  · split <;> split <;> omega
  · have := h d
    rw [hreq]
    split <;> omega

private theorem nodup_flatIndex (maxFace : Int) :
    ((faceKeys maxFace).map fun f => f.index maxFace).Nodup := by
  refine List.Nodup.map_on ?_ (nodup_faceKeys maxFace)
  intro f hf f' hf' heq
  rw [mem_faceKeys] at hf hf'
  have hpos := position_side maxFace fun d => (hf d).1
  have hpos' := position_side maxFace fun d => (hf' d).1
  have hrange : (f.position maxFace).InRange (maxFace + 2) := fun d => by
    have := hf d
    rw [hpos]
    split <;> omega
  have hrange' : (f'.position maxFace).InRange (maxFace + 2) := fun d => by
    have := hf' d
    rw [hpos']
    split <;> omega
  have heq := flatIndex_inj hrange hrange' heq
  refine KeyPart.side_injective (funext fun d => ?_)
  have hside := congrArg (fun k => k.side d) heq
  simp only [hpos, hpos'] at hside
  have := hf d
  have := hf' d
  split at hside <;> split at hside <;> omega

private theorem compartment_eq {apart : List PuzzlePart} (hp : ∀ p ∈ apart, ∀ d, 0 ≤ p.face d)
    (f : KeyPart) :
    compartment apart f = apart.filter fun p => Dir.all.all fun d => sideAccepts (f.side d) (p.face d) := by
  have hp₁ p (h : p ∈ searchFace apart f.k1 (some .top)) := hp p (mem_of_mem_searchFace h)
  have hp₂ p (h : p ∈ searchFace _ f.k2 (some .right)) := hp₁ p (mem_of_mem_searchFace h)
  have hp₃ p (h : p ∈ searchFace _ f.k3 (some .bottom)) := hp₂ p (mem_of_mem_searchFace h)
  rw [compartment, searchFace_eq fun p h => hp₃ p h .left, searchFace_eq fun p h => hp₂ p h .bottom,
    searchFace_eq fun p h => hp₁ p h .right, searchFace_eq fun p h => hp p h .top]
  simp only [List.filter_filter]
  refine List.filter_congr fun p _ => ?_
  simp only [Dir.all, List.all_cons, List.all_nil, KeyPart.side, Bool.and_true]
  ac_rfl

/-- The compartment stored at the index of a key. -/
theorem buildFlat_request {apart : List PuzzlePart} {maxFace : Int} {al : MapAllocs} {key : KeyPart}
    (hkey : key.InRange (maxFace + 2)) :
    buildFlat apart maxFace al (flatIndex (maxFace + 2) key) =
      buildCompartment apart maxFace al (key.request maxFace) := by
  have hmem : key.request maxFace ∈ faceKeys maxFace := mem_faceKeys.mpr fun d => by
    have := hkey d
    rw [KeyPart.request, KeyPart.side_ofSides]
    split <;> omega
  have hidx : (key.request maxFace).index maxFace = flatIndex (maxFace + 2) key := by
    rw [KeyPart.index, position_request hkey]
  rw [← hidx]
  exact Memory.writeAll_map (nodup_flatIndex maxFace) hmem

/-- The four filters leave the pieces the key asks for, in the order of the array. -/
theorem compartment_request {apart : List PuzzlePart} {maxFace : Int} {key : KeyPart}
    (hp : ∀ p ∈ apart, ∀ d, 0 ≤ p.face d) (hkey : key.InRange (maxFace + 2)) :
    compartment apart (key.request maxFace) = key.matching (maxFace + 1) apart := by
  rw [compartment_eq hp, KeyPart.matching]
  refine List.filter_congr fun p _ => ?_
  refine congrArg (Dir.all.all ·) (funext fun d => ?_)
  have := hkey d
  rw [Bool.eq_iff_iff, decide_eq_true_iff, decide_eq_true_iff, KeyPart.request, KeyPart.side_ofSides,
    sideAccepts, keyAccepts]
  by_cases h : key.side d = maxFace + 1
  · simp [h]
  · have h' : key.side d ≠ -1 := by omega
    simp [h, h']

/-- Every compartment holds the rotated pieces its key asks for, in some order. -/
theorem buildFlat_perm {apart : List PuzzlePart} {maxFace : Int} {al : MapAllocs} {key : KeyPart}
    (hp : ∀ p ∈ apart, ∀ d, 0 ≤ p.face d) (hkey : key.InRange (maxFace + 2)) :
    (buildFlat apart maxFace al (flatIndex (maxFace + 2) key)).Perm
      (key.matching (maxFace + 1) apart) := by
  rw [buildFlat_request hkey, ← compartment_request hp hkey]
  exact sortCompartmentByExposedRarity_perm _ _ _ _ _

/-! ## The packed index -/

section Packed

variable {flat : Nat → List PuzzlePart}

private theorem le_foldl_max {l : List Nat} {a x : Nat} (h : x ≤ a ∨ x ∈ l) : x ≤ l.foldl max a := by
  induction l generalizing a with
  | nil => simpa using h
  | cons b l ih =>
    rw [List.foldl_cons]
    refine ih ?_
    rcases h with h | h
    · exact .inl (h.trans (Nat.le_max_left _ _))
    · rcases List.mem_cons.mp h with rfl | h
      · exact .inl (Nat.le_max_right _ _)
      · exact .inr h

private theorem packed_offset {offset size : Nat} (h : size ≤ mapPackedFieldMax) :
    (offset <<< 16 ||| size) >>> 16 = offset := by
  rw [mapPackedFieldMax] at h
  rw [← Nat.shiftLeft_add_eq_or_of_lt (by omega), Nat.shiftRight_eq_div_pow, Nat.shiftLeft_eq]
  omega

private theorem packed_size {offset size : Nat} (h : size ≤ mapPackedFieldMax) :
    (offset <<< 16 ||| size) &&& mapPackedFieldMax = size := by
  have hmask : mapPackedFieldMax = 2 ^ 16 - 1 := rfl
  rw [mapPackedFieldMax] at h
  rw [← Nat.shiftLeft_add_eq_or_of_lt (by omega), hmask, Nat.and_two_pow_sub_one_eq_mod,
    Nat.shiftLeft_eq]
  omega

private theorem arenaOffset_succ (flat : Nat → List PuzzlePart) (idx : Nat) :
    arenaOffset flat (idx + 1) = arenaOffset flat idx + (flat idx).length := by
  simp [arenaOffset, List.range_succ]

private theorem arenaOffset_mono (flat : Nat → List PuzzlePart) {i j : Nat} (h : i ≤ j) : arenaOffset flat i ≤ arenaOffset flat j := by
  induction h with
  | refl => exact Nat.le_refl _
  | step _ ih => exact ih.trans (by rw [arenaOffset_succ]; omega)

/-- Two nonempty compartments start at different offsets. -/
private theorem arenaOffset_inj {i j : Nat} (hi : flat i ≠ []) (hj : flat j ≠ [])
    (h : arenaOffset flat i = arenaOffset flat j) : i = j := by
  have hstep : ∀ {i j : Nat}, flat i ≠ [] → i < j → arenaOffset flat i < arenaOffset flat j := by
    intro i j hi hij
    have hlen := List.length_pos_iff.mpr hi
    have hmono := arenaOffset_mono flat (show i + 1 ≤ j from hij)
    rw [arenaOffset_succ] at hmono
    omega
  rcases Nat.lt_trichotomy i j with hij | hij | hij
  · exact absurd h (Nat.ne_of_lt (hstep hi hij))
  · exact hij
  · exact absurd h.symm (Nat.ne_of_lt (hstep hj hij))

/-- The arena holds compartment `idx` at its offset. -/
private theorem arena_slice {idx nbKeys : Nat} (h : idx < nbKeys) :
    (((List.range nbKeys).flatMap flat).drop (arenaOffset flat idx)).take (flat idx).length =
      flat idx := by
  obtain ⟨k, rfl⟩ : ∃ k, nbKeys = idx + (k + 1) := ⟨nbKeys - idx - 1, by omega⟩
  have hlen : ((List.range idx).flatMap flat).length = arenaOffset flat idx := by
    rw [List.length_flatMap, arenaOffset]
  rw [List.range_add, List.flatMap_append, ← hlen, List.drop_left, List.range_succ_eq_map,
    List.map_cons, List.flatMap_cons, Nat.add_zero, List.take_left]

/-- What `build_packed_index` needs for the index to exist. -/
private theorem buildPackedIndex_eq_some {arena : Option (List PuzzlePart)} {nbKeys totalParts : Nat}
    {alloc : Bool} {packed : Nat → Nat}
    (h : buildPackedIndex flat arena nbKeys totalParts alloc = some packed) :
    arena ≠ none ∧ (∀ idx < nbKeys, (flat idx).length ≤ mapPackedFieldMax) ∧
      ∀ idx, packed idx =
        (if (flat idx).length > 0 then arenaOffset flat idx else 0) <<< 16 ||| (flat idx).length := by
  rw [buildPackedIndex] at h
  split at h
  · exact absurd h (by simp)
  · rename_i harena
    split at h
    · exact absurd h (by simp)
    · rename_i hfits
      split at h
      · exact absurd h (by simp)
      · refine ⟨by simpa using harena, fun idx hidx => ?_, fun idx => ?_⟩
        · simp only [mapPackedFits, Bool.not_eq_true', Bool.and_eq_false_iff, decide_eq_false_iff_not,
            not_or, not_not] at hfits
          refine le_trans ?_ hfits.2
          exact le_foldl_max (.inr (List.mem_map_of_mem (List.mem_range.mpr hidx)))
        · exact (congrFun (Option.some.inj h) idx).symm

/-- A packed entry leads to its compartment. -/
private theorem packedParts_eq {nbKeys totalParts idx : Nat} {alloc : Bool} {packed : Nat → Nat}
    {arena : List PuzzlePart} (harena : arena = (List.range nbKeys).flatMap flat)
    (h : buildPackedIndex flat (some arena) nbKeys totalParts alloc = some packed)
    (hidx : idx < nbKeys) : packedParts arena (packed idx) = flat idx := by
  obtain ⟨-, hsize, hpacked⟩ := buildPackedIndex_eq_some h
  rw [packedParts, hpacked, packed_offset (hsize idx hidx), packed_size (hsize idx hidx), harena]
  by_cases hne : (flat idx).length > 0
  · rw [if_pos hne]
    exact arena_slice hidx
  · rw [if_neg hne]
    have hnil : flat idx = [] := List.length_eq_zero_iff.mp (by omega)
    rw [hnil, List.length_nil, List.take_zero]

end Packed

section BuildBigArray

variable {apart : List PuzzlePart} {maxFace : Int} {al : MapAllocs} {key : KeyPart}

private theorem index_lt (hkey : key.InRange (maxFace + 2)) :
    flatIndex (maxFace + 2) key <
      ((maxFace + 2) * (maxFace + 2) * (maxFace + 2) * (maxFace + 2)).toNat := flatIndex_lt hkey

/-- The arena exists as soon as the packed index does. -/
private theorem arena_of_packed {packed : Nat → Nat}
    (h : (buildBigArray apart maxFace al).packed = some packed) :
    (buildBigArray apart maxFace al).arena = some ((List.range
      ((maxFace + 2) * (maxFace + 2) * (maxFace + 2) * (maxFace + 2)).toNat).flatMap
        (buildBigArray apart maxFace al).flat) := by
  have hne : (buildBigArray apart maxFace al).arena ≠ none := (buildPackedIndex_eq_some h).1
  simp only [buildBigArray] at hne ⊢
  split at hne
  · rename_i hpos
    rw [if_pos hpos]
  · exact absurd rfl hne

private theorem packedParts_buildBigArray {packed : Nat → Nat} {idx : Nat}
    (h : (buildBigArray apart maxFace al).packed = some packed)
    (hidx : idx < ((maxFace + 2) * (maxFace + 2) * (maxFace + 2) * (maxFace + 2)).toNat) :
    packedParts ((buildBigArray apart maxFace al).arena.getD []) (packed idx) =
      (buildBigArray apart maxFace al).flat idx := by
  have harena := arena_of_packed h
  have hbuild : buildPackedIndex (buildBigArray apart maxFace al).flat
      (buildBigArray apart maxFace al).arena _ _ al.packed = some packed := h
  rw [harena] at hbuild ⊢
  exact packedParts_eq rfl hbuild hidx

/-- The packed index reads the same compartment as `flat`. -/
theorem mapBucketPacked_eq (hkey : key.InRange (maxFace + 2)) :
    (buildBigArray apart maxFace al).mapBucketPacked key =
      (buildBigArray apart maxFace al).getPartsBigarrayWithKey key := by
  rw [MapBigArray.mapBucketPacked, MapBigArray.getPartsBigarrayWithKey]
  cases h : (buildBigArray apart maxFace al).packed with
  | none => rfl
  | some packed => exact packedParts_buildBigArray h (index_lt hkey)

variable (apart al) in
/-- The arena holds the compartment of every key at its offset. -/
theorem arena_buildBigArray_slice (hkey : key.InRange (maxFace + 2)) :
    (((buildBigArray apart maxFace al).arena.getD []).drop
        (arenaOffset (buildBigArray apart maxFace al).flat (flatIndex (maxFace + 2) key))).take
        ((buildBigArray apart maxFace al).getPartsBigarrayWithKey key).length =
      (buildBigArray apart maxFace al).getPartsBigarrayWithKey key := by
  have hslice : _ = buildFlat apart maxFace al _ := arena_slice (index_lt hkey)
  simp only [MapBigArray.getPartsBigarrayWithKey, buildBigArray]
  split
  · exact hslice
  · rename_i hnone
    have hmono := arenaOffset_mono (buildFlat apart maxFace al) (index_lt hkey)
    rw [arenaOffset_succ] at hmono
    have hnil : buildFlat apart maxFace al (flatIndex (maxFace + 2) key) = [] :=
      List.length_eq_zero_iff.mp (by omega)
    rw [hnil, List.length_nil, List.take_zero]

/-- A set bit of the mask area that belongs to one compartment comes from that compartment:
offsets of nonempty compartments differ, and identifiers stay within their words. -/
private theorem mem_idMaskBits {arena : List PuzzlePart} {packed : Nat → Nat} {flat : Nat → List PuzzlePart}
    {nbKeys words idx j : Nat} (hparts : ∀ i < nbKeys, packedParts arena (packed i) = flat i)
    (hoffset : ∀ i < nbKeys, ∀ i' < nbKeys, flat i ≠ [] → flat i' ≠ [] →
      packed i >>> 16 = packed i' >>> 16 → i = i')
    (hwords : ∀ i < nbKeys, ∀ p ∈ flat i, p.id ≤ words * 64) (hidx : idx < nbKeys)
    (hne : flat idx ≠ []) (hj : j < words * 64) :
    (packed idx >>> 16) * words * 64 + j ∈ idMaskBits arena packed nbKeys words ↔
      ∃ p ∈ flat idx, p.id = j + 1 := by
  simp only [idMaskBits, List.mem_flatMap, List.mem_range, List.mem_map, List.mem_filter,
    decide_eq_true_iff]
  constructor
  · rintro ⟨i, hi, p, ⟨hp, hpos⟩, heq⟩
    rw [hparts i hi] at hp
    have hle := hwords i hi p hp
    have hcomm : ∀ o : Nat, o * words * 64 = words * 64 * o := fun o => by ring
    rw [hcomm, hcomm] at heq
    have hdiv := congrArg (· / (words * 64)) heq
    rw [Nat.mul_add_div (by omega), Nat.mul_add_div (by omega),
      Nat.div_eq_of_lt (show p.id - 1 < words * 64 by omega), Nat.div_eq_of_lt hj] at hdiv
    obtain rfl := hoffset i hi idx hidx (List.ne_nil_of_mem hp) hne (by omega)
    exact ⟨p, hp, by omega⟩
  · rintro ⟨p, hp, hpj⟩
    exact ⟨idx, hidx, p, ⟨by rwa [hparts idx hidx], by omega⟩, by rw [hpj]; rfl⟩

/-- A compartment's identifier mask holds exactly the identifiers of the compartment. -/
theorem mapBucketIdMask_eq_some {mask : Words 64} (hkey : key.InRange (maxFace + 2))
    (h : (buildBigArray apart maxFace al).mapBucketIdMask key = some mask) :
    let map := buildBigArray apart maxFace al
    (∀ p ∈ map.getPartsBigarrayWithKey key, p.id ≤ map.idMaskWords * 64) ∧
      ∀ j < map.idMaskWords * 64,
        mask.bit j = true ↔ ∃ p ∈ map.getPartsBigarrayWithKey key, p.id = j + 1 := by
  intro map
  have hidx := index_lt hkey
  set nbKeys := ((maxFace + 2) * (maxFace + 2) * (maxFace + 2) * (maxFace + 2)).toNat
  set idx := flatIndex (maxFace + 2) key
  rw [MapBigArray.mapBucketIdMask] at h
  cases hmasks : map.bucketIdMask with
  | none => simp [map, hmasks] at h
  | some masks =>
  cases hpacked : map.packed with
  | none => simp [map, hpacked] at h
  | some packed =>
  have harena := arena_of_packed hpacked
  have hparts : ∀ i < nbKeys, packedParts (map.arena.getD []) (packed i) = map.flat i :=
    fun i hi => packedParts_buildBigArray hpacked hi
  obtain ⟨-, hsize, hentry⟩ := buildPackedIndex_eq_some (show buildPackedIndex map.flat map.arena nbKeys
    (arenaOffset map.flat nbKeys) al.packed = some packed from hpacked)
  have hmask : buildBucketIdMask map.arena map.packed nbKeys al.idMask =
      (map.bucketIdMask, map.idMaskWords) := rfl
  rw [hpacked, harena, hmasks] at hmask
  simp only [buildBucketIdMask] at hmask
  rw [harena, Option.getD_some] at hparts
  set arena := (List.range nbKeys).flatMap (buildBigArray apart maxFace al).flat with harenaDef
  split at hmask
  · simp at hmask
  simp only [Prod.mk.injEq, Option.some.injEq] at hmask
  obtain ⟨hbits, hwordsEq⟩ := hmask
  have hwords : ∀ i < nbKeys, ∀ p ∈ map.flat i, p.id ≤ map.idMaskWords * 64 := by
    intro i hi p hp
    have hmem : p.id ∈ arena.map PuzzlePart.id :=
      List.mem_map_of_mem (List.mem_flatMap.mpr ⟨i, List.mem_range.mpr hi, hp⟩)
    have hle : p.id ≤ (arena.map PuzzlePart.id).foldl max 0 := le_foldl_max (.inr hmem)
    rw [← hwordsEq, idMaskWordsFor]
    omega
  have hshift : ∀ i < nbKeys, map.flat i ≠ [] → packed i >>> 16 = arenaOffset map.flat i := by
    intro i hi hne
    rw [hentry, packed_offset (hsize i hi), if_pos (List.length_pos_iff.mpr hne)]
  have hoffset : ∀ i < nbKeys, ∀ i' < nbKeys, map.flat i ≠ [] → map.flat i' ≠ [] →
      packed i >>> 16 = packed i' >>> 16 → i = i' := by
    intro i hi i' hi' hne hne' heq
    rw [hshift i hi hne, hshift i' hi' hne'] at heq
    exact arenaOffset_inj hne hne' heq
  refine ⟨hwords idx hidx, fun j hj => ?_⟩
  have hentryIdx : packed idx &&& mapPackedFieldMax = (map.flat idx).length := by
    rw [hentry, packed_size (hsize idx hidx)]
  simp only [map, hmasks, hpacked] at h
  split at h
  · exact absurd h (by simp)
  rename_i hne
  have hne : map.flat idx ≠ [] := fun hnil => hne (by
    rw [show flatIndex (buildBigArray apart maxFace al).sizearray key = idx from rfl, hentryIdx, hnil]
    rfl)
  obtain rfl := Option.some.inj h
  have hbit : ∀ j, Words.bit (fun i => masks ((packed idx >>> 16) * map.idMaskWords + i)) j =
      masks.bit ((packed idx >>> 16) * map.idMaskWords * 64 + j) := fun j => by
    rw [Words.bit, Words.bit, Nat.mul_comm _ 64, Nat.mul_add_div (by omega), Nat.mul_add_mod]
  refine (Bool.eq_iff_iff.mp (hbit j)).trans ?_
  rw [← hbits, Words.bit_foldl_setBit (by omega), Words.bit_zero, Bool.or_false, decide_eq_true_iff,
    hwordsEq]
  exact mem_idMaskBits hparts hoffset hwords hidx hne hj

/-! ## What a compartment holds -/

/-- The exposed-colour score of a piece in the compartment of a key: how often the colours on its
open sides occur over all edges. -/
def KeyPart.exposedScore (apart : List PuzzlePart) (maxFace : Int) (key : KeyPart) (p : PuzzlePart) : Nat :=
  (Dir.all.map fun d => if key.side d = maxFace + 1 then computeFaceFrequency apart maxFace (p.face d) else 0).sum

/-- What the map says of one key: the pieces asked for, in what order, and the same through the
compact index and the identifier mask. -/
structure BucketOf (apart : List PuzzlePart) (maxFace : Int) (al : MapAllocs) (key : KeyPart) (map : MapBigArray) :
    Prop where
  perm : (map.getPartsBigarrayWithKey key).Perm
    (apart.filter fun p => Dir.all.all fun d => p.face d = key.side d ∨ key.side d = maxFace + 1 ∧ p.face d ≠ 0)
  sorted : al.faceFrequency = true → al.scores (flatIndex (maxFace + 2) key) = true →
    (map.getPartsBigarrayWithKey key).Pairwise fun p q =>
      key.exposedScore apart maxFace p ≤ key.exposedScore apart maxFace q
  packed : map.mapBucketPacked key = map.getPartsBigarrayWithKey key
  idMask : ∀ mask, map.mapBucketIdMask key = some mask →
    (∀ p ∈ map.getPartsBigarrayWithKey key, p.id ≤ map.idMaskWords * 64) ∧
      ∀ j < map.idMaskWords * 64, mask.bit j = true ↔ ∃ p ∈ map.getPartsBigarrayWithKey key, p.id = j + 1

/-- The score of the loops over `f` is the score of the key they stand for. -/
private theorem arenaExposedScore_request {apart : List PuzzlePart} {maxFace : Int} {key : KeyPart}
    (hkey : key.InRange (maxFace + 2)) {p : PuzzlePart} (hp : ∀ d, 0 ≤ p.face d ∧ p.face d ≤ maxFace) :
    arenaExposedScore p (key.request maxFace).side (computeFaceFrequency apart maxFace) maxFace =
      key.exposedScore apart maxFace p := by
  rw [arenaExposedScore, KeyPart.exposedScore]
  refine congrArg List.sum (List.map_congr_left fun d _ => ?_)
  have hside : (key.request maxFace).side d = -1 ↔ key.side d = maxFace + 1 := by
    have := hkey d
    rw [KeyPart.request, KeyPart.side_ofSides]
    split <;> omega
  simp only [hside, hp d, and_self, and_true]

/-- For every array of parts and every key, the compartment of the key. -/
theorem buildBigArray_bucketOf (apart : List PuzzlePart) (maxFace : Int) (al : MapAllocs)
    (hfaces : ∀ p ∈ apart, ∀ d, 0 ≤ p.face d ∧ p.face d ≤ maxFace) (key : KeyPart)
    (hkey : ∀ d, 0 ≤ key.side d ∧ key.side d ≤ maxFace + 1) :
    BucketOf apart maxFace al key (buildBigArray apart maxFace al) := by
  have hrange : key.InRange (maxFace + 2) := by
    intro d
    have := hkey d
    omega
  have hp : ∀ p ∈ apart, ∀ d, 0 ≤ p.face d := fun p hp d => (hfaces p hp d).1
  have hbucket : (buildBigArray apart maxFace al).getPartsBigarrayWithKey key =
      buildCompartment apart maxFace al (key.request maxFace) := buildFlat_request hrange
  have hperm : ((buildBigArray apart maxFace al).getPartsBigarrayWithKey key).Perm
      (key.matching (maxFace + 1) apart) := buildFlat_perm hp hrange
  constructor
  · refine hperm.trans (List.Perm.of_eq (List.filter_congr fun p hmem => ?_))
    refine congrArg (Dir.all.all ·) (funext fun d => ?_)
    have hface := hfaces p hmem d
    rw [Bool.eq_iff_iff, decide_eq_true_iff, decide_eq_true_iff, keyAccepts]
    split <;> omega
  · intro hfreq hscores
    have hindex : (key.request maxFace).index maxFace = flatIndex (maxFace + 2) key := by
      rw [KeyPart.index, position_request hrange]
    have hsorted := sortCompartmentByExposedRarity_pairwise (compartment apart (key.request maxFace))
      (key.request maxFace).side (computeFaceFrequency apart maxFace) maxFace
    have hmem : ∀ p ∈ (buildBigArray apart maxFace al).getPartsBigarrayWithKey key, p ∈ apart :=
      fun p hp => (KeyPart.mem_matching.mp (hperm.mem_iff.mp hp)).1
    rw [hbucket] at hmem ⊢
    rw [buildCompartment, hfreq, hindex, hscores, if_pos rfl] at hmem ⊢
    refine hsorted.imp_of_mem fun {p q} hp hq hle => ?_
    rw [← arenaExposedScore_request hrange (hfaces p (hmem p hp)),
      ← arenaExposedScore_request hrange (hfaces q (hmem q hq))]
    exact hle
  · exact mapBucketPacked_eq hrange
  · exact fun mask hmask => mapBucketIdMask_eq_some hrange hmask

/-- Two pieces that share three colours. -/
def twoParts : List PuzzlePart := [⟨1, 1, 1, 1, 1, 0⟩, ⟨2, 1, 1, 1, 2, 0⟩]

/-- The second piece shows the rarer colour and comes first. -/
theorem buildBigArray_bucketOf_two :
    ((buildBigArray twoParts 2 ⟨true, fun _ => true, true, true⟩).getPartsBigarrayWithKey ⟨3, 3, 3, 3⟩).map
        PuzzlePart.id = [2, 1] ∧
      BucketOf twoParts 2 ⟨true, fun _ => true, true, true⟩ ⟨3, 3, 3, 3⟩
        (buildBigArray twoParts 2 ⟨true, fun _ => true, true, true⟩) := by
  refine ⟨by decide +kernel, buildBigArray_bucketOf _ _ _ ?_ _ ?_⟩
  · intro p hp d
    rw [twoParts, List.mem_pair] at hp
    rcases hp with rfl | rfl <;> cases d <;> decide
  · intro d
    cases d <;> decide

/-- Without its score buffer the compartment keeps the order of the array. -/
theorem buildBigArray_unsorted :
    ¬((buildBigArray twoParts 2 ⟨true, fun _ => false, true, true⟩).getPartsBigarrayWithKey ⟨3, 3, 3, 3⟩).Pairwise
      fun p q => KeyPart.exposedScore twoParts 2 ⟨3, 3, 3, 3⟩ p ≤ KeyPart.exposedScore twoParts 2 ⟨3, 3, 3, 3⟩ q := by
  decide +kernel

end BuildBigArray

/-! ## The map of a piece set -/

/-- What the search relies on: each compartment holds the rotated pieces its key asks for,
and the packed index and the masks say the same as `flat`. -/
structure MapOf {P : Puzzle} (ps : PieceSet P) (map : MapBigArray) : Prop where
  joker_pos : 0 < map.sizearrayM
  face_lt_joker : ∀ p ∈ rotateAllPartsList ps, ∀ d, p.face d < map.sizearrayM
  bucket_perm : ∀ key : KeyPart, key.InRange (map.sizearrayM + 1) →
    (map.getPartsBigarrayWithKey key).Perm (key.matching map.sizearrayM (rotateAllPartsList ps))
  packed_eq : ∀ key : KeyPart, key.InRange (map.sizearrayM + 1) →
    map.mapBucketPacked key = map.getPartsBigarrayWithKey key
  idMask_eq : ∀ (key : KeyPart) (mask : Words 64), key.InRange (map.sizearrayM + 1) →
    map.mapBucketIdMask key = some mask →
    (∀ p ∈ map.getPartsBigarrayWithKey key, p.id ≤ map.idMaskWords * 64) ∧
      ∀ j < map.idMaskWords * 64,
        mask.bit j = true ↔ ∃ p ∈ map.getPartsBigarrayWithKey key, p.id = j + 1

private theorem foldl_faces_ge (p : PuzzlePart) (m : Int) :
    let m' := Dir.all.foldl (fun m d => if p.face d > m then p.face d else m) m
    m ≤ m' ∧ ∀ d, p.face d ≤ m' := by
  simp only [Dir.all, List.foldl_cons, List.foldl_nil]
  have hdir : ∀ {q : Dir → Prop}, q .top → q .right → q .bottom → q .left → ∀ d, q d := by
    intro q h₁ h₂ h₃ h₄ d
    cases d <;> assumption
  refine ⟨by split_ifs <;> omega, hdir ?_ ?_ ?_ ?_⟩ <;> split_ifs <;> omega

private theorem searchMaxFace_ge (apart : List PuzzlePart) (m : Int) :
    let m' := apart.foldl
      (fun maxface p => Dir.all.foldl (fun m d => if p.face d > m then p.face d else m) maxface) m
    m ≤ m' ∧ ∀ p ∈ apart, ∀ d, p.face d ≤ m' := by
  induction apart generalizing m with
  | nil => simp
  | cons p l ih =>
    obtain ⟨hm, hfaces⟩ := foldl_faces_ge p m
    obtain ⟨hm', hl⟩ := ih (Dir.all.foldl (fun m d => if p.face d > m then p.face d else m) m)
    refine ⟨hm.trans hm', fun q hq d => ?_⟩
    rcases List.mem_cons.mp hq with rfl | hq
    · exact (hfaces d).trans hm'
    · exact hl q hq d

theorem face_nonneg_of_mem {P : Puzzle} {ps : PieceSet P} {p : PuzzlePart} (h : p ∈ rotateAllPartsList ps)
    (d : Dir) : 0 ≤ p.face d := by
  by_cases hid : p.id = 0
  · obtain ⟨n, hn, rfl⟩ := List.mem_map.mp h
    rcases Nat.eq_zero_or_pos n with rfl | hpos
    · rw [rotateAllParts_zero, PuzzlePart.plug_face]
    · have hv : IsPiece P n := isPiece_iff.mpr (by
        rw [List.mem_range, rotateAllPartsSize] at hn
        omega)
      have hmem := (rotateAllParts_mem ps hv).2.1
      rw [Int.toNat_natCast, hid] at hmem
      exact absurd (pieceId_pos (P := P) (v := n)) (by omega)
  · obtain ⟨hv, -, hp⟩ := rotateAllParts_value h hid
    rw [← hp]
    exact shows_nonneg ps hv d

/-- `prepare_map_part` builds the map of its piece set. -/
theorem mapOf_prepareMapPart {P : Puzzle} (ps : PieceSet P) (al : MapAllocs) :
    MapOf ps (prepareMapPart ps al) := by
  obtain ⟨hpos, hmax⟩ := searchMaxFace_ge (rotateAllPartsList ps) 0
  have hrange : ∀ {key : KeyPart}, key.InRange ((prepareMapPart ps al).sizearrayM + 1) →
      key.InRange (searchMaxFace (rotateAllPartsList ps) + 2) := by
    intro key h d
    have := h d
    simp only [prepareMapPart, buildBigArray] at this
    omega
  have hM : (prepareMapPart ps al).sizearrayM = searchMaxFace (rotateAllPartsList ps) + 1 := by
    simp only [prepareMapPart, buildBigArray]
    omega
  refine ⟨?_, fun p hp d => ?_, fun key hkey => ?_, fun key hkey => ?_, fun key mask hkey h => ?_⟩
  · rw [hM]
    exact Int.lt_add_one_of_le hpos
  · rw [hM]
    exact Int.lt_add_one_of_le (hmax p hp d)
  · rw [hM]
    exact buildFlat_perm (fun p hp => face_nonneg_of_mem hp) (hrange hkey)
  · exact mapBucketPacked_eq (hrange hkey)
  · exact mapBucketIdMask_eq_some (hrange hkey) h
