-- SUMMARY: add_possibility: which packets a call acknowledges, stores or drops, and when a call is all or nothing.
import EternityII.Stock.PutToServer

/-!
# Adding packets

`add_possibility` sends packets to the server, or puts them in the local pools when no server
is configured. Either way a packet ends acknowledged, stored or dropped, and the value returned
says little about which: a call that fails may have acknowledged and stored packets, and a call
that succeeds may have dropped some.
-/

/-- What `add_possibility` reads: whether a server is configured, the network, and the locks of
the local pools when there is none. -/
structure AddEnv where
  remote : Bool
  connection : Connection
  turn : Nat → ChunkTurn
  freeUnchecked : Nat → Bool
  freeChecked : Nat → Bool

/-- The value of `DATAMANAGER_ADD_*`. -/
def AddStatus.code : AddStatus → Int
  | .ok => 0
  | .refusedRamCap => 1
  | .refusedPoolLocked => 2

/-- `add_possibility`. -/
def addPossibility {P : Puzzle} (env : AddEnv) (stock : LocalStock) (possibilities : List (Packet P)) :
    ServerPut P :=
  if env.remote then putToServer env.connection env.turn stock possibilities
  else
    let put := putToLocal stock possibilities env.freeUnchecked env.freeChecked
    ⟨put.1, [], put.2.code⟩

/-! ## One insertion -/

section Insertion

variable {P : Puzzle} {packets : List (Packet P)} {stock : LocalStock} {free : Nat → Bool}

/-- The pool for packets with or without the flag takes the packets: they fit under the cap and
an attempt locks a file. -/
def LocalStock.Takes (stock : LocalStock) (wantChecked : Bool) (packets : List (Packet P))
    (free : Nat → Bool) : Prop :=
  stock.Admits packets ∧ ∃ i < trylockMaxSweeps * (stock.pool wantChecked).files.length, free i = true

/-- An attempt before the last one locks a file. -/
def LocksInTime (attempts : Nat) (free : Nat → Bool) : Prop := ∃ i, i + 1 < attempts ∧ free i = true

theorem firstFree_eq_some {attempts i j : Nat} (h : firstFree free attempts i = some j) :
    i ≤ j ∧ j < i + attempts ∧ free j = true ∧ ∀ k, i ≤ k → k < j → free k = false := by
  induction attempts generalizing i with
  | zero => exact absurd h (by simp [firstFree])
  | succ attempts ih =>
    rw [firstFree] at h
    split at h
    · rename_i hfree
      obtain rfl := Option.some.inj h
      exact ⟨Nat.le_refl _, by omega, hfree, fun k hk hlt => absurd hk (Nat.not_le.mpr hlt)⟩
    · rename_i hbusy
      obtain ⟨hle, hlt, hfree, hbefore⟩ := ih h
      refine ⟨by omega, by omega, hfree, fun k hk hkj => ?_⟩
      rcases Nat.eq_or_lt_of_le hk with rfl | hk
      · exact Bool.not_eq_true _ ▸ hbusy
      · exact hbefore k hk hkj

theorem firstFree_eq_none {attempts i : Nat} (h : firstFree free attempts i = none) :
    ∀ k < attempts, free (i + k) = false := by
  intro k hk
  by_contra hfree
  obtain ⟨j, hj⟩ := firstFree_isSome ⟨k, hk, by simpa using hfree⟩
  rw [h] at hj
  exact absurd hj (by simp)

theorem lastAttempt_iff {attempts i : Nat} (h : firstFree free attempts 0 = some i) :
    i + 1 = attempts ↔ ¬ LocksInTime attempts free := by
  obtain ⟨-, hlt, hfree, hbefore⟩ := firstFree_eq_some h
  constructor
  · rintro hlast ⟨j, hj, hj'⟩
    rw [hbefore j (Nat.zero_le _) (by omega)] at hj'
    exact absurd hj' (by decide)
  · intro hnot
    by_contra hne
    exact hnot ⟨i, by omega, hfree⟩

/-- Packets the pool takes are stored, and reported so unless the lock was found at the very last
attempt. -/
theorem putToPool_stored {wantChecked : Bool} (hne : routed packets wantChecked ≠ [])
    (h : stock.Takes wantChecked (routed packets wantChecked) free) :
    (putToPool stock packets wantChecked free).1.records.Perm
        (stock.records ++ (routed packets wantChecked).filterMap recordOf) ∧
      ((putToPool stock packets wantChecked free).2 = .ok ↔
        LocksInTime (trylockMaxSweeps * (stock.pool wantChecked).files.length) free) := by
  obtain ⟨hadmits, hfree⟩ := h
  constructor
  · have hspec := putToPool_spec stock packets wantChecked hfree
    generalize putToPool stock packets wantChecked free = r at hspec
    obtain ⟨stock', status⟩ := r
    cases hspec with
    | stored _ records _ _ _ _ => exact records
    | refused _ full => exact absurd hadmits full
  · obtain ⟨i, hi⟩ := firstFree_isSome (i := 0) (by simpa using hfree)
    have hcap : ¬ (stock.stockMaxRamBytes > 0 ∧ stock.residentBytes +
        ((routed packets wantChecked).map incomingBytes).sum > stock.stockMaxRamBytes) := by
      unfold LocalStock.Admits at hadmits
      omega
    unfold putToPool
    dsimp only
    rw [if_neg (by simpa using hne), if_neg hcap, hi]
    dsimp only
    rw [← not_iff_not, ← lastAttempt_iff hi]
    split <;> simp_all

/-- Packets the pool does not take leave it as it is, and a refusal is reported. -/
theorem putToPool_refused {wantChecked : Bool} (hne : routed packets wantChecked ≠ [])
    (h : ¬ stock.Takes wantChecked (routed packets wantChecked) free) :
    (putToPool stock packets wantChecked free).1.records = stock.records ∧
      (putToPool stock packets wantChecked free).2 ≠ .ok := by
  unfold putToPool
  dsimp only
  rw [if_neg (by simpa using hne)]
  split
  · exact ⟨rfl, by simp⟩
  · rename_i hcap
    have hadmits : stock.Admits (routed packets wantChecked) := by
      unfold LocalStock.Admits
      omega
    split
    · refine ⟨?_, by simp⟩
      cases wantChecked <;> rfl
    · rename_i i hi
      obtain ⟨-, hlt, hfree, -⟩ := firstFree_eq_some hi
      exact absurd ⟨hadmits, i, by omega, hfree⟩ h

variable (hunchecked : ∀ p ∈ packets, p.checked ≠ 1)
include hunchecked

theorem routed_unchecked : routed packets false = packets ∧ routed packets true = [] := by
  constructor
  · exact List.filter_eq_self.mpr fun p hp => by simp [hunchecked p hp]
  · exact List.filter_eq_nil_iff.mpr fun p hp => by simp [hunchecked p hp]

/-- Unchecked packets only concern one of the two pools. -/
theorem putToLocal_unchecked (stock : LocalStock) (freeUnchecked freeChecked : Nat → Bool) :
    putToLocal stock packets freeUnchecked freeChecked =
      putToPool stock packets false freeUnchecked := by
  have hchecked : ∀ stock' : LocalStock, putToPool stock' packets true freeChecked = (stock', .ok) := by
    intro stock'
    have hnone := congrArg List.length (routed_unchecked hunchecked).2
    unfold putToPool
    exact if_pos hnone
  unfold putToLocal
  dsimp only
  rw [hchecked]
  generalize putToPool stock packets false freeUnchecked = r
  obtain ⟨stock', status⟩ := r
  cases status <;> rfl

end Insertion

/-! ## All or nothing -/

section AllOrNothing

variable {P : Puzzle} (mayLose : Packet P → Prop) (turn : Nat → ChunkTurn)

/-- The loop of `put_to_server` delivers everything: no chunk meets a lost connection, and each
is acknowledged, or taken by the local pools, or may be lost. -/
def Transfers : Nat → Nat → List (Packet P) → LocalStock → Prop
  | 0, _, _, _ => True
  | fuel + 1, n, rest, stock =>
    rest = [] ∨ (turn n).sent = true ∧ (turn n).ack ≠ instEnd ∧
      (if (turn n).ack = instConsidered then
        Transfers fuel (n + 1) (rest.drop (chunkLength rest)) stock
      else
        (stock.Takes false (rest.take (chunkLength rest)) (turn n).freeUnchecked ∨
          ∀ p ∈ rest.take (chunkLength rest), mayLose p) ∧
        Transfers fuel (n + 1) (rest.drop (chunkLength rest))
          (putToLocal stock (rest.take (chunkLength rest)) (turn n).freeUnchecked (turn n).freeChecked).1)

/-- The loop of `put_to_server` delivers nothing: the connection is lost before any chunk is
acknowledged, and the local pools take none of the packets that come back. -/
def Bounces : Nat → Nat → List (Packet P) → LocalStock → Prop
  | 0, _, _, _ => False
  | fuel + 1, n, rest, stock =>
    rest ≠ [] ∧
      (if (turn n).sent = false ∨ (turn n).ack = instEnd then
        ¬ stock.Takes false rest (turn n).freeUnchecked
      else
        (turn n).ack ≠ instConsidered ∧
        ¬ stock.Takes false (rest.take (chunkLength rest)) (turn n).freeUnchecked ∧
        Bounces fuel (n + 1) (rest.drop (chunkLength rest))
          (putToLocal stock (rest.take (chunkLength rest)) (turn n).freeUnchecked (turn n).freeChecked).1)

/-- A call of `add_possibility` is all or nothing: it reports success and delivers every packet
that may not be lost, or it reports a failure and delivers none. -/
def AllOrNothing (env : AddEnv) (stock : LocalStock) (packets : List (Packet P)) : Prop :=
  if env.remote then
    checkAndConnectToServer env.connection ≠ .connected ∨
      Transfers mayLose env.turn packets.length 0 packets stock ∨
      Bounces env.turn packets.length 0 packets stock
  else
    stock.Takes false packets env.freeUnchecked →
      LocksInTime (trylockMaxSweeps * stock.unchecked.files.length) env.freeUnchecked

end AllOrNothing

/-! ## What becomes of the packets -/

/-- The packets have been acknowledged, stored or dropped; the records of the local pools are
those before and those of the packets stored. -/
structure AddFate {P : Puzzle} (packets : List (Packet P)) (stock stock' : LocalStock)
    (acked stored dropped : List (Packet P)) : Prop where
  split : (acked ++ stored ++ dropped).Perm packets
  records : stock'.records.Perm (stock.records ++ stored.filterMap recordOf)

/-- A call whose success loses no packet that matters exactly on `delivers`, and whose failure
delivers nothing exactly on `bounces`. -/
inductive AddOutcome {P : Puzzle} (mayLose : Packet P → Prop) (acked stored dropped : List (Packet P))
    (delivers bounces : Prop) (result : Int) : Prop
  | success (result_eq : result = 0) (lossless : (∀ p ∈ dropped, mayLose p) ↔ delivers)
      (not_bounces : ¬ bounces)
  | failure (result_ne : result ≠ 0) (empty : acked = [] ∧ stored = [] ↔ bounces)
      (not_delivers : ¬ delivers)

section Fate

variable {P : Puzzle} {mayLose : Packet P → Prop} {turn : Nat → ChunkTurn}
  {packets rest first second acked stored dropped : List (Packet P)} {stock stock' stock'' : LocalStock}

theorem AddFate.nil (stock : LocalStock) : AddFate ([] : List (Packet P)) stock stock [] [] [] :=
  ⟨.refl _, by simp⟩

/-- One insertion of unchecked packets stores all of them or drops all of them. -/
theorem addFate_putToLocal (hne : packets ≠ []) (hunchecked : ∀ p ∈ packets, p.checked ≠ 1)
    (stock : LocalStock) (freeUnchecked freeChecked : Nat → Bool) :
    (stock.Takes false packets freeUnchecked ∧ AddFate packets stock
        (putToLocal stock packets freeUnchecked freeChecked).1 [] packets []) ∨
      (¬ stock.Takes false packets freeUnchecked ∧ AddFate packets stock
        (putToLocal stock packets freeUnchecked freeChecked).1 [] [] packets) := by
  have hrouted := (routed_unchecked hunchecked).1
  rw [putToLocal_unchecked hunchecked]
  by_cases h : stock.Takes false packets freeUnchecked
  · have hstored := putToPool_stored (hrouted.symm ▸ hne) (hrouted.symm ▸ h)
    rw [hrouted] at hstored
    exact .inl ⟨h, by simp, hstored.1⟩
  · have hrefused := putToPool_refused (hrouted.symm ▸ hne) (hrouted.symm ▸ h)
    exact .inr ⟨h, by simp, by rw [hrefused.1]; simp⟩

theorem AddFate.append {acked₂ stored₂ dropped₂ : List (Packet P)}
    (h : AddFate first stock stock' acked stored dropped)
    (h₂ : AddFate second stock' stock'' acked₂ stored₂ dropped₂) :
    AddFate (first ++ second) stock stock'' (acked ++ acked₂) (stored ++ stored₂) (dropped ++ dropped₂) := by
  constructor
  · have hswap : ((acked ++ acked₂) ++ (stored ++ stored₂) ++ (dropped ++ dropped₂)).Perm
        ((acked ++ stored ++ dropped) ++ (acked₂ ++ stored₂ ++ dropped₂)) := by
      classical
      apply List.perm_iff_count.mpr
      intro p
      simp only [List.count_append]
      omega
    exact hswap.trans (h.split.append h₂.split)
  · rw [List.filterMap_append, ← List.append_assoc]
    exact h₂.records.trans (h.records.append_right _)

theorem AddFate.acknowledged (packets : List (Packet P)) (stock : LocalStock) :
    AddFate packets stock stock packets [] [] :=
  ⟨by simp, by simp⟩

theorem connectionLost_result {t : ChunkTurn} : (connectionLost t rest stock acked).result ≠ 0 := by
  show (-1 : Int) ≠ 0
  decide

/-- What the loop of `put_to_server` makes of the packets it is given. -/
def LoopFate (mayLose : Packet P → Prop) (turn : Nat → ChunkTurn) (fuel n : Nat) (rest : List (Packet P))
    (stock : LocalStock) (acked : List (Packet P)) (r : ServerPut P) : Prop :=
  ∃ acked' stored dropped, r.acked = acked ++ acked' ∧ AddFate rest stock r.stock acked' stored dropped ∧
    AddOutcome mayLose acked' stored dropped (Transfers mayLose turn fuel n rest stock)
      (Bounces turn fuel n rest stock) r.result

theorem LoopFate.nil (fuel n : Nat) (stock : LocalStock) (acked : List (Packet P)) :
    LoopFate mayLose turn fuel n [] stock acked ⟨stock, acked, 0⟩ := by
  refine ⟨[], [], [], (List.append_nil _).symm, .nil stock, .success rfl ?_ ?_⟩
  · refine iff_of_true (fun _ h => absurd h List.not_mem_nil) ?_
    cases fuel with
    | zero => trivial
    | succ fuel => exact .inl rfl
  · cases fuel with
    | zero => exact id
    | succ fuel => exact fun h => h.1 rfl

theorem LoopFate.lost {fuel n : Nat} (hne : rest ≠ []) (hunchecked : ∀ p ∈ rest, p.checked ≠ 1)
    (hlost : (turn n).sent = false ∨ (turn n).ack = instEnd) (stock : LocalStock) (acked : List (Packet P)) :
    LoopFate mayLose turn (fuel + 1) n rest stock acked (connectionLost (turn n) rest stock acked) := by
  have hbounces : Bounces turn (fuel + 1) n rest stock ↔
      ¬ stock.Takes false rest (turn n).freeUnchecked := by
    rw [Bounces, if_pos hlost]
    exact and_iff_right hne
  have hdelivers : ¬ Transfers mayLose turn (fuel + 1) n rest stock := by
    rw [Transfers]
    rintro (hnil | ⟨hsent, hack, -⟩)
    · exact hne hnil
    · exact hlost.elim (fun h => by simp [h] at hsent) hack
  rcases addFate_putToLocal hne hunchecked stock (turn n).freeUnchecked (turn n).freeChecked with
    ⟨htakes, hfate⟩ | ⟨htakes, hfate⟩
  · refine ⟨[], rest, [], (List.append_nil _).symm, hfate, .failure connectionLost_result ?_ hdelivers⟩
    rw [hbounces]
    exact iff_of_false (fun h => hne h.2) (not_not_intro htakes)
  · refine ⟨[], [], rest, (List.append_nil _).symm, hfate, .failure connectionLost_result ?_ hdelivers⟩
    rw [hbounces]
    exact iff_of_true ⟨rfl, rfl⟩ htakes

theorem putToServerLoop_fate {fuel : Nat} (n : Nat) {rest : List (Packet P)} (stock : LocalStock)
    (acked : List (Packet P)) (hunchecked : ∀ p ∈ rest, p.checked ≠ 1) (hfuel : rest.length ≤ fuel) :
    LoopFate mayLose turn fuel n rest stock acked (putToServerLoop turn fuel n rest stock acked) := by
  induction fuel generalizing n rest acked stock with
  | zero =>
    obtain rfl := List.eq_nil_of_length_eq_zero (Nat.le_zero.mp hfuel)
    exact .nil 0 n stock acked
  | succ fuel ih =>
    unfold putToServerLoop
    split
    · rename_i hnil
      obtain rfl := List.eq_nil_of_length_eq_zero hnil
      exact .nil (fuel + 1) n stock acked
    · rename_i hrest
      have hne : rest ≠ [] := List.ne_nil_of_length_pos (Nat.pos_of_ne_zero hrest)
      have hpos := chunkLength_pos hne
      have hdrop : (rest.drop (chunkLength rest)).length ≤ fuel := by
        rw [List.length_drop]
        omega
      have hchunk : rest.take (chunkLength rest) ≠ [] := by
        apply List.ne_nil_of_length_pos
        rw [List.length_take]
        omega
      have hfirst : ∀ p ∈ rest.take (chunkLength rest), p.checked ≠ 1 :=
        fun p hp => hunchecked p (List.mem_of_mem_take hp)
      have hsecond : ∀ p ∈ rest.drop (chunkLength rest), p.checked ≠ 1 :=
        fun p hp => hunchecked p (List.mem_of_mem_drop hp)
      have hsplit := List.take_append_drop (chunkLength rest) rest
      dsimp only
      split
      · rename_i hsend
        exact .lost hne hunchecked (.inl (by simpa using hsend)) stock acked
      · rename_i hsend
        have hsent : (turn n).sent = true := by simpa using hsend
        split
        · rename_i hack
          have hend : (turn n).ack ≠ instEnd := by
            rw [hack]
            decide
          obtain ⟨acked', stored, dropped, hacked, hfate, houtcome⟩ :=
            ih (n + 1) stock (acked ++ rest.take (chunkLength rest)) hsecond hdrop
          have hall := (AddFate.acknowledged (rest.take (chunkLength rest)) stock).append hfate
          rw [hsplit] at hall
          have hdelivers : Transfers mayLose turn (fuel + 1) n rest stock ↔
              Transfers mayLose turn fuel (n + 1) (rest.drop (chunkLength rest)) stock := by
            rw [Transfers, if_pos hack]
            simp [hne, hsent, hend]
          have hbounces : ¬ Bounces turn (fuel + 1) n rest stock := by
            rw [Bounces, if_neg (by simp [hsent, hend])]
            exact fun h => h.2.1 hack
          refine ⟨_, _, _, hacked.trans (List.append_assoc ..), hall, ?_⟩
          cases houtcome with
          | success result_eq lossless _ =>
            exact .success result_eq (lossless.trans hdelivers.symm) hbounces
          | failure result_ne _ not_delivers =>
            refine .failure result_ne (iff_of_false ?_ hbounces) (mt hdelivers.mp not_delivers)
            exact fun h => hchunk (List.append_eq_nil_iff.mp h.1).1
        · rename_i hack
          split
          · rename_i hend
            exact .lost hne hunchecked (.inr hend) stock acked
          · rename_i hend
            obtain ⟨acked', stored, dropped, hacked, hfate, houtcome⟩ :=
              ih (n + 1) (putToLocal stock (rest.take (chunkLength rest)) (turn n).freeUnchecked
                (turn n).freeChecked).1 acked hsecond hdrop
            have hbounces : Bounces turn (fuel + 1) n rest stock ↔
                ¬ stock.Takes false (rest.take (chunkLength rest)) (turn n).freeUnchecked ∧
                  Bounces turn fuel (n + 1) (rest.drop (chunkLength rest)) (putToLocal stock
                    (rest.take (chunkLength rest)) (turn n).freeUnchecked (turn n).freeChecked).1 := by
              rw [Bounces, if_neg (by simp [hsent, hend])]
              simp [hne, hack]
            have hdelivers : Transfers mayLose turn (fuel + 1) n rest stock ↔
                (stock.Takes false (rest.take (chunkLength rest)) (turn n).freeUnchecked ∨
                  ∀ p ∈ rest.take (chunkLength rest), mayLose p) ∧
                Transfers mayLose turn fuel (n + 1) (rest.drop (chunkLength rest)) (putToLocal stock
                    (rest.take (chunkLength rest)) (turn n).freeUnchecked (turn n).freeChecked).1 := by
              rw [Transfers, if_neg hack]
              simp [hne, hsent, hend]
            rcases addFate_putToLocal hchunk hfirst stock (turn n).freeUnchecked (turn n).freeChecked with
              ⟨htakes, hput⟩ | ⟨htakes, hput⟩
            · have hall := hput.append hfate
              rw [hsplit] at hall
              refine ⟨_, _, _, hacked, hall, ?_⟩
              cases houtcome with
              | success result_eq lossless _ =>
                refine .success result_eq ?_ (fun h => (hbounces.mp h).1 htakes)
                rw [hdelivers]
                simpa [htakes] using lossless
              | failure result_ne _ not_delivers =>
                refine .failure result_ne (iff_of_false ?_ fun h => (hbounces.mp h).1 htakes)
                  fun h => not_delivers (hdelivers.mp h).2
                exact fun h => hchunk (List.append_eq_nil_iff.mp h.2).1
            · have hall := hput.append hfate
              rw [hsplit] at hall
              refine ⟨_, _, _, hacked, hall, ?_⟩
              cases houtcome with
              | success result_eq lossless not_bounces =>
                refine .success result_eq ?_ (fun h => not_bounces (hbounces.mp h).2)
                rw [hdelivers, List.forall_mem_append, lossless]
                simp [htakes]
              | failure result_ne empty not_delivers =>
                refine .failure result_ne ?_ fun h => not_delivers (hdelivers.mp h).2
                rw [hbounces, ← empty]
                simp [htakes]

/-- What `add_possibility` makes of unchecked packets, and when it is all or nothing. -/
theorem addPossibility_fate (env : AddEnv) (stock : LocalStock) (hne : packets ≠ [])
    (hunchecked : ∀ p ∈ packets, p.checked ≠ 1) :
    ∃ acked stored dropped delivers bounces, (addPossibility env stock packets).acked = acked ∧
      AddFate packets stock (addPossibility env stock packets).stock acked stored dropped ∧
      AddOutcome mayLose acked stored dropped delivers bounces (addPossibility env stock packets).result ∧
      (AllOrNothing mayLose env stock packets ↔ delivers ∨ bounces) := by
  have hlength : packets.length ≠ 0 := by simpa using hne
  unfold addPossibility AllOrNothing
  split
  · unfold putToServer
    rw [if_neg hlength]
    split
    · rename_i hconnect
      refine ⟨[], [], packets, False, True, rfl, ⟨by simp, by simp⟩,
        .failure (show (-1 : Int) ≠ 0 by decide) (by simp) id, by simp [hconnect]⟩
    · rename_i hconnect
      obtain ⟨acked, stored, dropped, hacked, hfate, houtcome⟩ :=
        putToServerLoop_fate 0 stock [] hunchecked
          (Nat.le_refl packets.length)
      exact ⟨acked, stored, dropped, _, _, hacked, hfate, houtcome, by simp [hconnect]⟩
  · dsimp only
    have hrouted := (routed_unchecked hunchecked).1
    rw [putToLocal_unchecked hunchecked]
    by_cases htakes : stock.Takes false packets env.freeUnchecked
    · have hstored := putToPool_stored (hrouted.symm ▸ hne) (hrouted.symm ▸ htakes)
      rw [hrouted] at hstored
      obtain ⟨hrecords, hstatus⟩ := hstored
      by_cases htime : LocksInTime (trylockMaxSweeps * stock.unchecked.files.length) env.freeUnchecked
      · refine ⟨[], packets, [], True, False, rfl, ⟨by simp, hrecords⟩,
          .success ?_ (by simp) id, by simp [htime]⟩
        rw [hstatus.mpr htime]
        rfl
      · refine ⟨[], packets, [], False, False, rfl, ⟨by simp, hrecords⟩,
          .failure ?_ (by simp [hne]) id, by simp [htime, htakes]⟩
        have hnot := mt hstatus.mp htime
        generalize (putToPool stock packets false env.freeUnchecked).2 = status at hnot
        cases status <;> simp_all [AddStatus.code]
    · have hrefused := putToPool_refused (hrouted.symm ▸ hne) (hrouted.symm ▸ htakes)
      refine ⟨[], [], packets, False, True, rfl, ⟨by simp, by rw [hrefused.1]; simp⟩,
        .failure ?_ (by simp) id, by simp [htakes]⟩
      have hnot := hrefused.2
      generalize (putToPool stock packets false env.freeUnchecked).2 = status at hnot
      cases status <;> simp_all [AddStatus.code]

end Fate
