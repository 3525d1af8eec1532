-- SUMMARY: The two hellos of a client: their codecs, and when a refused hello leaves the identity of a connection alone.
import EternityII.App.WorkConnection
import EternityII.Base.ByteSource

/-!
# Hellos

A client announces who it is on each work connection and on its control channel. Both hellos carry
the same identity, whose label has a variable length. The decoder fills a structure field after
field; on a work connection that structure is the identity of the connection itself.
-/

open ByteSource

/-! ## The codecs -/

/-- The label as the string that `strnlen` finds, cut to its bound. -/
def ClientIdentity.labelText (id : ClientIdentity) : List Byte := (id.label.take (clientLabelMax - 1)).takeWhile (· ≠ 0)

/-- The identity with its label cut to its bound. -/
def ClientIdentity.cut (id : ClientIdentity) : ClientIdentity := { id with label := id.labelText }

/-- A `client_identity_t`: its arrays have their sizes. -/
structure SizedIdentity extends ClientIdentity where
  machineUid_length : machineUid.length = 16
  clientUid_length : clientUid.length = 16
  forkSeq_length : forkSeq.length = 4

/-- `client_identity_encode`; `none` for -1. -/
def clientIdentityEncode (id : ClientIdentity) (bufsize : Nat) : Option (List Byte) :=
  let labelLen := id.labelText.length
  let needed := clientIdentityWireMinSize + labelLen
  if bufsize < needed then none
  else some (id.machineUid ++ (id.clientUid ++ (id.forkSeq ++ ([id.mode] ++ ([BitVec.ofNat 8 labelLen] ++ id.labelText)))))

/-- `client_identity_decode` on a buffer that starts at `off`, of which nothing is known but `len`. -/
def clientIdentityRead (buf : ByteSource Byte) (off : Nat) (len : Int) (out : ClientIdentity) :
    Reader (Int × ClientIdentity) :=
  if len < clientIdentityWireMinSize then pure (-1, out)
  else do
    let machineUid ← copy buf off 16
    let clientUid ← copy buf (off + 16) 16
    let forkSeq ← copy buf (off + 32) 4
    let mode ← byte buf (off + 36)
    let out : ClientIdentity := ⟨machineUid, clientUid, forkSeq, mode, out.label⟩
    let labelLen ← byte buf (off + 37)
    if labelLen.toNat > clientLabelMax - 1 then pure (-1, out)
    else if clientIdentityWireMinSize + labelLen.toNat > len then pure (-1, out)
    else do
      let label ← if labelLen.toNat > 0 then copy buf (off + 38) labelLen.toNat else pure []
      pure (0, { out with label := label })

/-- `control_hello_t`. -/
structure ControlHelloPayload where
  pid : List Byte
  nbForks : List Byte
  identity : ClientIdentity

/-- A `control_hello_t`: its fields have their sizes. -/
structure SizedControlHello where
  pid : List Byte
  nbForks : List Byte
  identity : SizedIdentity
  pid_length : pid.length = 4
  nbForks_length : nbForks.length = 4

/-- `CONTROL_HELLO_WIRE_MAX_SIZE`. -/
def controlHelloWireMaxSize : Nat := 4 + 4 + clientIdentityWireMaxSize

/-- `control_hello_encode`; `none` for -1. -/
def controlHelloEncode (hello : ControlHelloPayload) (bufsize : Nat) : Option (List Byte) :=
  if bufsize < 4 + 4 then none
  else (clientIdentityEncode hello.identity (bufsize - 8)).map fun identity => hello.pid ++ (hello.nbForks ++ identity)

/-- `control_hello_decode` on a buffer of which nothing is known but `len`. -/
def controlHelloRead (buf : ByteSource Byte) (len : Int) (out : ControlHelloPayload) :
    Reader (Int × ControlHelloPayload) :=
  if len < 4 + 4 then pure (-1, out)
  else do
    let pid ← copy buf 0 4
    let nbForks ← copy buf 4 4
    let (result, identity) ← clientIdentityRead buf 8 (len - 8) out.identity
    pure (result, ⟨pid, nbForks, identity⟩)

/-! ## What the decoders read -/

section Codec

variable {buf : ByteSource Byte} {off reach bufsize : Nat} {len : Int} {out : ClientIdentity}

/-- The identity with the fields in front of its label read from a buffer. -/
def ClientIdentity.written (buf : ByteSource Byte) (off : Nat) (out : ClientIdentity) : ClientIdentity :=
  ⟨buf.window off 16, buf.window (off + 16) 16, buf.window (off + 32) 4, buf (off + 36), out.label⟩

/-- The length given covers a label that is not too long. -/
def LabelFits (buf : ByteSource Byte) (off : Nat) (len : Int) : Prop :=
  (buf (off + 37)).toNat ≤ clientLabelMax - 1 ∧ clientIdentityWireMinSize + (buf (off + 37)).toNat ≤ len

instance : Decidable (LabelFits buf off len) := inferInstanceAs (Decidable (_ ∧ _))

/-- The furthest byte that the decoder of an identity touches. -/
def identityReach (buf : ByteSource Byte) (off : Nat) (len : Int) (reach : Nat) : Nat :=
  if len < clientIdentityWireMinSize then reach
  else max reach (off + clientIdentityWireMinSize + if LabelFits buf off len then (buf (off + 37)).toNat else 0)

theorem clientIdentityDecode_window {n : Nat} (h : clientIdentityWireMinSize ≤ n) :
    clientIdentityDecode (buf.window off n) n out =
      if LabelFits buf off n then
        (0, { ClientIdentity.written buf off out with label := buf.window (off + 38) (buf (off + 37)).toNat })
      else (-1, ClientIdentity.written buf off out) := by
  have h38 : 38 ≤ n := h
  have hwritten : (⟨(buf.window off n).take 16, ((buf.window off n).drop 16).take 16, ((buf.window off n).drop 32).take 4,
      (buf.window off n).getD 36 0, out.label⟩ : ClientIdentity) = ClientIdentity.written buf off out := by
    rw [take_window (by omega), drop_window (by omega), take_window (by omega), drop_window (by omega),
      take_window (by omega), getD_window (by omega), ClientIdentity.written]
  have hlabelLen : (buf.window off n).getD 37 0 = buf (off + 37) := getD_window (by omega) 0
  unfold clientIdentityDecode
  dsimp only
  rw [if_neg (Nat.not_lt.mpr h), hwritten, hlabelLen]
  by_cases hfits : LabelFits buf off n
  · have hroom : clientIdentityWireMinSize + (buf (off + 37)).toNat ≤ n := Int.ofNat_le.mp hfits.2
    have hlabel : ((buf.window off n).drop 38).take (buf (off + 37)).toNat =
        buf.window (off + 38) (buf (off + 37)).toNat := by
      have : clientIdentityWireMinSize = 38 := rfl
      rw [drop_window h38, take_window (by omega)]
    rw [if_pos hfits, if_neg (Nat.not_lt.mpr hfits.1), if_neg (Nat.not_lt.mpr hroom), hlabel, ← hwritten]
  · rw [if_neg hfits]
    by_cases hmax : (buf (off + 37)).toNat > clientLabelMax - 1
    · rw [if_pos hmax]
    · have hroom : clientIdentityWireMinSize + (buf (off + 37)).toNat > n :=
        Nat.lt_of_not_le fun hle => hfits ⟨Nat.not_lt.mp hmax, Int.ofNat_le.mpr hle⟩
      rw [if_neg hmax, if_pos hroom]

/-- The decoder is `clientIdentityDecode` on the bytes it was given. -/
theorem run_clientIdentityRead : (clientIdentityRead buf off len out).run reach =
    pure (clientIdentityDecode (buf.window off len.toNat) len.toNat out, identityReach buf off len reach) := by
  unfold clientIdentityRead identityReach
  by_cases hshort : len < clientIdentityWireMinSize
  · have hshort' : len.toNat < clientIdentityWireMinSize := by
      unfold clientIdentityWireMinSize at *
      omega
    rw [if_pos hshort, if_pos hshort, clientIdentityDecode, if_pos hshort']
    rfl
  · obtain ⟨n, rfl⟩ : ∃ n : Nat, len = n := ⟨len.toNat, by omega⟩
    have hreach : max (max (max (max (max reach (off + 16)) (off + 16 + 16)) (off + 32 + 4)) (off + 36 + 1)) (off + 37 + 1) =
        max reach (off + clientIdentityWireMinSize) := by
      unfold clientIdentityWireMinSize
      omega
    rw [if_neg hshort, if_neg hshort, Int.toNat_natCast,
      clientIdentityDecode_window (Nat.not_lt.mp (mt Int.ofNat_lt.mpr hshort))]
    simp only [StateT.run_bind, run_copy, run_byte, pure_bind, hreach]
    by_cases hfits : LabelFits buf off n
    · rw [if_pos hfits, if_pos hfits, if_neg (Nat.not_lt.mpr hfits.1), if_neg (Int.not_lt.mpr hfits.2)]
      by_cases hempty : (buf (off + 37)).toNat > 0
      · have hmore : max (max reach (off + clientIdentityWireMinSize)) (off + 38 + (buf (off + 37)).toNat) =
            max reach (off + clientIdentityWireMinSize + (buf (off + 37)).toNat) := by
          unfold clientIdentityWireMinSize
          omega
        rw [if_pos hempty, StateT.run_bind, run_copy, pure_bind, hmore]
        rfl
      · rw [if_neg hempty, Nat.eq_zero_of_not_pos hempty, Nat.add_zero]
        rfl
    · rw [if_neg hfits, if_neg hfits, Nat.add_zero]
      by_cases hmax : (buf (off + 37)).toNat > clientLabelMax - 1
      · rw [if_pos hmax]
        rfl
      · rw [if_neg hmax, if_pos (Int.lt_of_not_ge fun hle => hfits ⟨Nat.not_lt.mp hmax, hle⟩)]
        rfl

theorem identityReach_le : identityReach buf off len reach ≤ max reach (off + len.toNat) := by
  unfold identityReach
  split
  · omega
  · rename_i hlong
    by_cases hfits : LabelFits buf off len
    · have hroom := hfits.2
      rw [if_pos hfits]
      omega
    · rw [if_neg hfits]
      omega

theorem ClientIdentity.length_labelText (id : ClientIdentity) : id.labelText.length ≤ clientLabelMax - 1 :=
  (List.takeWhile_sublist _).length_le.trans (List.length_take_le _ _)

/-- A buffer of `CLIENT_IDENTITY_WIRE_MAX_SIZE` takes every identity. -/
theorem clientIdentityEncode_eq_some (id : ClientIdentity) (h : clientIdentityWireMaxSize ≤ bufsize) :
    clientIdentityEncode id bufsize = some (id.machineUid ++ (id.clientUid ++ (id.forkSeq ++ ([id.mode] ++
      ([BitVec.ofNat 8 id.labelText.length] ++ id.labelText))))) := by
  have hlabel := id.length_labelText
  exact if_neg (by unfold clientIdentityWireMaxSize at h; omega)

/-- Reading back what was encoded gives the identity with its label cut, and touches exactly its bytes. -/
theorem clientIdentityRead_encode (id : SizedIdentity) {bytes : List Byte}
    (hencode : clientIdentityEncode id.toClientIdentity bufsize = some bytes) (hholds : buf.Holds off bytes)
    (hreach : reach ≤ off) :
    (clientIdentityRead buf off bytes.length out).run reach = pure ((0, id.toClientIdentity.cut), off + bytes.length) := by
  obtain ⟨-, heq⟩ := Option.ite_none_left_eq_some.mp hencode
  have heq := Option.some.inj heq
  have hlabelMax := id.toClientIdentity.length_labelText
  have hlength : bytes.length = clientIdentityWireMinSize + id.labelText.length := by
    rw [← heq]
    simp only [List.length_append, List.length_singleton, id.machineUid_length, id.clientUid_length, id.forkSeq_length,
      clientIdentityWireMinSize]
    omega
  rw [← heq] at hholds
  have hmachine : buf.window off 16 = id.machineUid := hholds.front id.machineUid_length
  have hafter := hholds.rest id.machineUid_length
  have hclient : buf.window (off + 16) 16 = id.clientUid := hafter.front id.clientUid_length
  have hafter := hafter.rest id.clientUid_length
  have hfork : buf.window (off + 32) 4 = id.forkSeq := hafter.front id.forkSeq_length
  have hafter := hafter.rest id.forkSeq_length
  have hmode : buf (off + 36) = id.mode := List.singleton_inj.mp (hafter.front rfl)
  have hafter := hafter.rest rfl
  have hlabelLen : buf (off + 37) = BitVec.ofNat 8 id.labelText.length := List.singleton_inj.mp (hafter.front rfl)
  have hlabel : buf.window (off + 38) id.labelText.length = id.labelText := hafter.rest rfl
  have htoNat : (buf (off + 37)).toNat = id.labelText.length := by
    rw [hlabelLen, BitVec.toNat_ofNat]
    exact Nat.mod_eq_of_lt (by unfold clientLabelMax at hlabelMax; omega)
  have hfits : LabelFits buf off bytes.length := ⟨by rwa [htoNat], by rw [htoNat, hlength]; exact Int.le_refl _⟩
  have hnotShort : ¬ (bytes.length : Int) < clientIdentityWireMinSize := by omega
  rw [run_clientIdentityRead, Int.toNat_natCast, clientIdentityDecode_window (by omega), if_pos hfits, identityReach,
    if_neg hnotShort, if_pos hfits, htoNat, hlabel, ClientIdentity.written, hmachine, hclient, hfork, hmode,
    Nat.max_eq_right (by omega), hlength, Nat.add_assoc]
  rfl

/-- The hello with the label of its identity cut to its bound. -/
def SizedControlHello.cut (hello : SizedControlHello) : ControlHelloPayload :=
  ⟨hello.pid, hello.nbForks, hello.identity.toClientIdentity.cut⟩

theorem controlHelloRead_encode (hello : SizedControlHello) {bytes : List Byte} {out : ControlHelloPayload}
    (hencode : controlHelloEncode ⟨hello.pid, hello.nbForks, hello.identity.toClientIdentity⟩ bufsize = some bytes)
    (hholds : buf.Holds 0 bytes) :
    (controlHelloRead buf bytes.length out).run 0 = pure ((0, hello.cut), bytes.length) := by
  obtain ⟨-, hsome⟩ := Option.ite_none_left_eq_some.mp hencode
  obtain ⟨identity, hidentity, rfl⟩ := Option.map_eq_some_iff.mp hsome
  have hpid : buf.window 0 4 = hello.pid := hholds.front hello.pid_length
  have hafter := hholds.rest hello.pid_length
  have hforks : buf.window 4 4 = hello.nbForks := hafter.front hello.nbForks_length
  have hafter := hafter.rest hello.nbForks_length
  have hlength : (hello.pid ++ (hello.nbForks ++ identity)).length = 8 + identity.length := by
    rw [List.length_append, List.length_append, hello.pid_length, hello.nbForks_length]
    omega
  have hread : (clientIdentityRead buf 8 identity.length out.identity).run 8 =
      pure ((0, hello.identity.toClientIdentity.cut), 8 + identity.length) :=
    clientIdentityRead_encode hello.identity hidentity hafter (Nat.le_refl 8)
  rw [hlength, controlHelloRead, if_neg (by omega), show ((8 + identity.length : Nat) : Int) - 8 = identity.length by omega]
  simp only [StateT.run_bind, run_copy, pure_bind, hpid, hforks]
  rw [show max (max 0 (0 + 4)) (4 + 4) = 8 from rfl, hread]
  rfl

/-- What the decoder of a control hello touches. -/
theorem controlHelloRead_reach {out : ControlHelloPayload} :
    (Id.run ((controlHelloRead buf len out).run 0)).2 ≤ len.toNat := by
  unfold controlHelloRead
  split
  · exact Nat.zero_le _
  · simp only [StateT.run_bind, run_copy, pure_bind, run_clientIdentityRead]
    have hle : identityReach buf 8 (len - 8) 8 ≤ max 8 (8 + (len - 8).toNat) := identityReach_le
    refine Nat.le_trans hle ?_
    omega

end Codec

/-! ## The identity of a connection -/

section Hello

variable {P : Puzzle} {c : WorkConfig} {w w' : WorkConnection P} {len : Option Int} {buf : List Byte} {n : Nat}

/-- The payload of a hello arrives whole. -/
def HelloArrives (len : Option Int) (buf : List Byte) (n : Nat) : Prop :=
  len = some (n : Int) ∧ n ≤ clientIdentityWireMaxSize ∧ n ≤ buf.length

/-- A payload of `n` bytes holds an identity. -/
def HelloDecodes (buf : List Byte) (n : Nat) : Prop :=
  clientIdentityWireMinSize ≤ n ∧ (buf.getD 37 0).toNat ≤ clientLabelMax - 1 ∧
    clientIdentityWireMinSize + (buf.getD 37 0).toNat ≤ n

instance : Decidable (HelloDecodes buf n) := inferInstanceAs (Decidable (_ ∧ _))

/-- A payload repeats the fields of an identity that stand in front of its label. -/
def RepeatsFields (buf : List Byte) (id : ClientIdentity) : Prop :=
  buf.take 16 = id.machineUid ∧ (buf.drop 16).take 16 = id.clientUid ∧ (buf.drop 32).take 4 = id.forkSeq ∧
    buf.getD 36 0 = id.mode

/-- A payload that arrives is too short for the fields of fixed size, or holds an identity, or repeats
the fields that the connection has. -/
def HelloClean (w : WorkConnection P) (len : Option Int) (buf : List Byte) : Prop :=
  ∀ n, HelloArrives len buf n → n < clientIdentityWireMinSize ∨ HelloDecodes buf n ∨ RepeatsFields buf w.identity

/-- The identity of a connection and whether it counts. -/
def WorkConnection.SameIdentity (w w' : WorkConnection P) : Prop :=
  w'.identity = w.identity ∧ w'.hasIdentity = w.hasIdentity

theorem clientIdentityDecode_short {out : ClientIdentity} (h : n < clientIdentityWireMinSize) :
    clientIdentityDecode buf n out = (-1, out) := if_pos h

/-- What a decoder that has gone past the length leaves. -/
theorem clientIdentityDecode_long {out : ClientIdentity} (h : clientIdentityWireMinSize ≤ n) :
    clientIdentityDecode buf n out =
      if HelloDecodes buf n then
        (0, ⟨buf.take 16, (buf.drop 16).take 16, (buf.drop 32).take 4, buf.getD 36 0,
          (buf.drop 38).take (buf.getD 37 0).toNat⟩)
      else (-1, ⟨buf.take 16, (buf.drop 16).take 16, (buf.drop 32).take 4, buf.getD 36 0, out.label⟩) := by
  unfold clientIdentityDecode
  rw [if_neg (Nat.not_lt.mpr h)]
  dsimp only
  by_cases hdecodes : HelloDecodes buf n
  · rw [if_pos hdecodes, if_neg (Nat.not_lt.mpr hdecodes.2.1), if_neg (Nat.not_lt.mpr hdecodes.2.2)]
  · rw [if_neg hdecodes]
    by_cases hmax : (buf.getD 37 0).toNat > clientLabelMax - 1
    · rw [if_pos hmax]
    · have hroom : clientIdentityWireMinSize + (buf.getD 37 0).toNat > n :=
        Nat.lt_of_not_le fun hle => hdecodes ⟨h, Nat.not_lt.mp hmax, hle⟩
      rw [if_neg hmax, if_pos hroom]

/-- A hello that does not arrive ends the connection and changes nothing. -/
theorem answer_clientHello_lost (h : ∀ n, ¬ HelloArrives len buf n) :
    (w.answer c (.clientHello len buf)).1 = w := by
  cases len with
  | none => rfl
  | some len =>
    rw [WorkConnection.answer]
    by_cases hrange : len < 0 ∨ len > clientIdentityWireMaxSize
    · rw [if_pos hrange]
    · rw [if_neg hrange]
      by_cases hshort : buf.length < len.toNat
      · rw [if_pos hshort]
      · exact absurd ⟨by rw [Int.toNat_of_nonneg (by omega)], by omega, Nat.not_lt.mp hshort⟩ (h len.toNat)

theorem answer_clientHello (h : HelloArrives len buf n) :
    (w.answer c (.clientHello len buf)).1 =
      { w with
        identity := (clientIdentityDecode buf n w.identity).2
        hasIdentity := w.hasIdentity || decide ((clientIdentityDecode buf n w.identity).1 = 0) } := by
  obtain ⟨rfl, hmax, hlength⟩ := h
  rw [WorkConnection.answer, if_neg (by omega), if_neg (by rw [Int.toNat_natCast]; omega)]
  rfl

theorem HelloArrives.unique {m : Nat} (h : HelloArrives len buf n) (h' : HelloArrives len buf m) : m = n :=
  Int.ofNat_inj.mp (Option.some.inj (h'.1.symm.trans h.1))

/-- A hello that holds no identity leaves that of the connection alone exactly when it is too short for
the fields of fixed size or repeats them. -/
theorem answer_clientHello_keeps_iff :
    ((¬ ∃ n, HelloArrives len buf n ∧ HelloDecodes buf n) → w.SameIdentity (w.answer c (.clientHello len buf)).1) ↔
      HelloClean w len buf := by
  by_cases harrives : ∃ n, HelloArrives len buf n
  · obtain ⟨n, hn⟩ := harrives
    rw [answer_clientHello hn]
    constructor
    · intro hkeeps m hm
      rw [hn.unique hm]
      by_cases hshort : n < clientIdentityWireMinSize
      · exact .inl hshort
      by_cases hdecodes : HelloDecodes buf n
      · exact .inr (.inl hdecodes)
      have hrefused : ¬ ∃ n, HelloArrives len buf n ∧ HelloDecodes buf n := by
        rintro ⟨k, hk, hdec⟩
        rw [hn.unique hk] at hdec
        exact hdecodes hdec
      have hsame := (hkeeps hrefused).1
      dsimp only at hsame
      rw [clientIdentityDecode_long (Nat.not_lt.mp hshort), if_neg hdecodes] at hsame
      refine .inr (.inr ?_)
      rw [← hsame]
      exact ⟨rfl, rfl, rfl, rfl⟩
    · intro hclean hrefused
      rcases hclean n hn with hshort | hdecodes | hrepeats
      · rw [clientIdentityDecode_short hshort]
        exact ⟨rfl, Bool.or_false _⟩
      · exact absurd ⟨n, hn, hdecodes⟩ hrefused
      · rcases Nat.lt_or_ge n clientIdentityWireMinSize with hshort | hlong
        · rw [clientIdentityDecode_short hshort]
          exact ⟨rfl, Bool.or_false _⟩
        · obtain ⟨hmachine, hclient, hfork, hmode⟩ := hrepeats
          rw [clientIdentityDecode_long hlong, if_neg fun hdecodes => hrefused ⟨n, hn, hdecodes⟩, hmachine, hclient, hfork,
            hmode]
          exact ⟨rfl, Bool.or_false _⟩
  · have hlost : ∀ n, ¬ HelloArrives len buf n := fun n hn => harrives ⟨n, hn⟩
    rw [answer_clientHello_lost hlost]
    exact iff_of_true (fun _ => ⟨rfl, rfl⟩) fun n hn => absurd hn (hlost n)

/-- An accepted hello replaces the identity. -/
theorem answer_clientHello_owner (h : HelloArrives len buf n) (hdecodes : HelloDecodes buf n) :
    (w.answer c (.clientHello len buf)).1.owner = some ((buf.drop 16).take 16) := by
  rw [answer_clientHello h, WorkConnection.owner, clientIdentityDecode_long hdecodes.1, if_pos hdecodes]
  simp

theorem WorkConnection.SameIdentity.owner_eq (h : w.SameIdentity w') : w'.owner = w.owner := by
  unfold WorkConnection.owner
  rw [h.1, h.2]

theorem WorkConnection.SameIdentity.trans {w'' : WorkConnection P} (h : w.SameIdentity w') (h' : w'.SameIdentity w'') :
    w.SameIdentity w'' := ⟨h'.1.trans h.1, h'.2.trans h.2⟩

theorem sameIdentity_acknowledge (possibility : Packet P) (free : Nat → Bool) :
    w.SameIdentity (w.acknowledge c possibility free) := by
  rw [WorkConnection.acknowledge]
  split <;> exact ⟨rfl, rfl⟩

theorem sameIdentity_acknowledgeBatch {free : Nat → Nat → Bool} {packets : List (Packet P)} {p : Nat} :
    w.SameIdentity (WorkConnection.acknowledgeBatch c free p packets w) := by
  induction packets generalizing p w with
  | nil => exact ⟨rfl, rfl⟩
  | cons possibility packets ih => exact (sameIdentity_acknowledge possibility (free p)).trans ih

theorem sameIdentity_requeueOne (t : RequeueTurn) (possibility : Packet P) :
    w.SameIdentity (w.requeueOne c t possibility) := by
  rw [WorkConnection.requeueOne]
  split <;> exact ⟨rfl, rfl⟩

theorem sameIdentity_requeueLoop {turn : Nat → RequeueTurn} {packets : List (Packet P)} {rp : Nat} :
    w.SameIdentity (WorkConnection.requeueLoop c turn rp packets w) := by
  induction packets generalizing rp w with
  | nil => exact ⟨rfl, rfl⟩
  | cons possibility packets ih => exact (sameIdentity_requeueOne (turn rp) possibility).trans ih

/-- Only a hello changes the identity. -/
theorem sameIdentity_answer {r : WorkRequest P} (h : ∀ len buf, r ≠ .clientHello len buf) :
    w.SameIdentity (w.answer c r).1 := by
  cases r with
  | get found turn => exact ⟨rfl, rfl⟩
  | getToCheck found turn => exact ⟨rfl, rfl⟩
  | getToCheckBatch requested found turn => cases requested <;> exact ⟨rfl, rfl⟩
  | possibilityAnalysed possibility free =>
    cases possibility with
    | none => exact ⟨rfl, rfl⟩
    | some possibility => exact sameIdentity_acknowledge possibility free
  | possibilityAnalysedBatch m packets free =>
    cases m with
    | none => exact ⟨rfl, rfl⟩
    | some m =>
      rw [WorkConnection.answer]
      split
      · exact ⟨rfl, rfl⟩
      · exact sameIdentity_acknowledgeBatch
  | clientHello len buf => exact absurd rfl (h len buf)

end Hello

/-! ## Runs -/

/-- A connection, and the `client_uid` of the last hello on it that held an identity. -/
structure Attribution (P : Puzzle) where
  connection : WorkConnection P
  lastAccepted : Option (List Byte)

/-- The `client_uid` of a hello that holds an identity. -/
def acceptedUid (len : Option Int) (buf : List Byte) : Option (List Byte) :=
  len.bind fun n =>
    if 0 ≤ n ∧ n ≤ clientIdentityWireMaxSize ∧ n.toNat ≤ buf.length ∧ HelloDecodes buf n.toNat then
      some ((buf.drop 16).take 16)
    else none

namespace Attribution

variable {P : Puzzle} {c : WorkConfig} {a a' : Attribution P}

/-- The identity last accepted after a step. -/
def accept (a : Attribution P) : ConnectionStep P → Option (List Byte)
  | .instruction (.request (.clientHello len buf)) =>
    if a.connection.versionSupported then (acceptedUid len buf).or a.lastAccepted else a.lastAccepted
  | _ => a.lastAccepted

/-- One step of the connection. -/
def step (c : WorkConfig) (a : Attribution P) (s : ConnectionStep P) : Option (Attribution P) :=
  (a.connection.step c s).map fun w => ⟨w, a.accept s⟩

/-- A hello that the connection reads is clean. -/
def Clean (a : Attribution P) : ConnectionStep P → Prop
  | .instruction (.request (.clientHello len buf)) => a.connection.versionSupported = true → HelloClean a.connection len buf
  | _ => True

theorem acceptedUid_eq_some {len : Option Int} {buf : List Byte} {n : Nat} (h : HelloArrives len buf n)
    (hdecodes : HelloDecodes buf n) : acceptedUid len buf = some ((buf.drop 16).take 16) := by
  obtain ⟨rfl, hmax, hlength⟩ := h
  exact if_pos ⟨Int.natCast_nonneg n, Int.ofNat_le.mpr hmax, hlength, hdecodes⟩

theorem acceptedUid_eq_none {len : Option Int} {buf : List Byte} (h : ¬ ∃ n, HelloArrives len buf n ∧ HelloDecodes buf n) :
    acceptedUid len buf = none := by
  cases len with
  | none => rfl
  | some n =>
    refine if_neg fun ⟨hpos, hmax, hlength, hdecodes⟩ => h ⟨n.toNat, ⟨?_, by omega, hlength⟩, hdecodes⟩
    rw [Int.toNat_of_nonneg hpos]

theorem accept_of_ne {r : WorkRequest P} (hother : ∀ len buf, r ≠ .clientHello len buf) :
    a.accept (.instruction (.request r)) = a.lastAccepted := by
  cases r with
  | clientHello len buf => exact absurd rfl (hother len buf)
  | _ => rfl

/-- What a connection with a supported version does with a request. -/
theorem owner_answer {r : WorkRequest P} (h : a.connection.owner = a.lastAccepted)
    (hclean : a.Clean (.instruction (.request r))) (hsupported : a.connection.versionSupported = true) :
    (a.connection.answer c r).1.owner = a.accept (.instruction (.request r)) := by
  by_cases hhello : ∃ len buf, r = .clientHello len buf
  · obtain ⟨len, buf, rfl⟩ := hhello
    rw [accept, if_pos hsupported]
    by_cases haccepted : ∃ n, HelloArrives len buf n ∧ HelloDecodes buf n
    · obtain ⟨n, harrives, hdecodes⟩ := haccepted
      rw [answer_clientHello_owner harrives hdecodes, acceptedUid_eq_some harrives hdecodes]
      rfl
    · have hsame : a.connection.SameIdentity (a.connection.answer c (.clientHello len buf)).1 :=
        answer_clientHello_keeps_iff.mpr (hclean hsupported) haccepted
      rw [hsame.owner_eq, acceptedUid_eq_none haccepted, h]
      rfl
  · have hother : ∀ len buf, r ≠ .clientHello len buf := fun len buf heq => hhello ⟨len, buf, heq⟩
    rw [(sameIdentity_answer hother).owner_eq, accept_of_ne hother, h]

/-- The owner of what is served stays the identity last accepted. -/
theorem owner_step {s : ConnectionStep P} (h : a.connection.owner = a.lastAccepted) (hclean : a.Clean s)
    (hstep : a.step c s = some a') : a'.connection.owner = a'.lastAccepted := by
  obtain ⟨w, hw, rfl⟩ := Option.map_eq_some_iff.mp hstep
  cases s with
  | disconnect alive turn =>
    obtain ⟨-, heq⟩ := Option.ite_none_left_eq_some.mp hw
    cases heq
    have hsame : a.connection.SameIdentity (a.connection.requeueLastSentPossibility c alive turn) := by
      unfold WorkConnection.requeueLastSentPossibility
      split
      · exact ⟨rfl, rfl⟩
      · split
        · exact ⟨rfl, rfl⟩
        · exact sameIdentity_requeueLoop
    exact (WorkConnection.SameIdentity.owner_eq hsame).trans h
  | instruction i =>
    obtain ⟨-, heq⟩ := Option.ite_none_right_eq_some.mp hw
    cases heq
    cases i with
    | checkVersion clientVersion => cases clientVersion <;> exact h
    | request r =>
      show (a.connection.communicateWithClientStep c (.request r)).1.owner = _
      rw [WorkConnection.communicateWithClientStep]
      by_cases hsupported : a.connection.versionSupported = true
      · rw [if_pos hsupported]
        exact owner_answer h hclean hsupported
      · rw [if_neg hsupported]
        cases r with
        | clientHello len buf => exact h.trans (if_neg hsupported).symm
        | _ => exact h

/-- The owner of what is served is the identity last accepted, in every run of clean hellos. -/
theorem owner_run (h : a.connection.owner = a.lastAccepted) (hrun : Run (step c) Clean a a') :
    a'.connection.owner = a'.lastAccepted :=
  hrun.invariant (I := fun a => a.connection.owner = a.lastAccepted) h
    fun hinv hclean hstep => owner_step hinv hclean hstep

end Attribution

/-- The codecs give back what was encoded, with the label cut, and touch nothing past the length given. A
hello that holds no identity leaves that of the connection alone exactly when it is clean, and in a run
of clean hellos what is served is attributed to the identity last accepted. -/
theorem clientHello_keeps_iff {P : Puzzle} (c : WorkConfig) :
    (∀ (id : SizedIdentity) (bufsize : Nat), clientIdentityWireMaxSize ≤ bufsize →
      ∃ bytes, clientIdentityEncode id.toClientIdentity bufsize = some bytes) ∧
    (∀ (hello : SizedControlHello) (bufsize : Nat), controlHelloWireMaxSize ≤ bufsize →
      ∃ bytes, controlHelloEncode ⟨hello.pid, hello.nbForks, hello.identity.toClientIdentity⟩ bufsize = some bytes) ∧
    (∀ (id : SizedIdentity) (bufsize : Nat) (bytes : List Byte) (buf : ByteSource Byte) (out : ClientIdentity),
      clientIdentityEncode id.toClientIdentity bufsize = some bytes → buf.Holds 0 bytes →
      (clientIdentityRead buf 0 bytes.length out).run 0 = pure ((0, id.toClientIdentity.cut), bytes.length)) ∧
    (∀ (hello : SizedControlHello) (bufsize : Nat) (bytes : List Byte) (buf : ByteSource Byte) (out : ControlHelloPayload),
      controlHelloEncode ⟨hello.pid, hello.nbForks, hello.identity.toClientIdentity⟩ bufsize = some bytes →
      buf.Holds 0 bytes → (controlHelloRead buf bytes.length out).run 0 = pure ((0, hello.cut), bytes.length)) ∧
    (∀ (buf : ByteSource Byte) (len : Int) (out : ClientIdentity),
      (Id.run ((clientIdentityRead buf 0 len out).run 0)).2 ≤ len.toNat) ∧
    (∀ (buf : ByteSource Byte) (len : Int) (out : ControlHelloPayload),
      (Id.run ((controlHelloRead buf len out).run 0)).2 ≤ len.toNat) ∧
    (∀ (w : WorkConnection P) (len : Option Int) (buf : List Byte),
      ((¬ ∃ n, HelloArrives len buf n ∧ HelloDecodes buf n) →
        w.SameIdentity (w.answer c (.clientHello len buf)).1) ↔ HelloClean w len buf) ∧
    (∀ (stock : LocalStock) (analysed : AnalysedPool P) (identity : ClientIdentity) (a : Attribution P),
      Run (Attribution.step c) Attribution.Clean ⟨.accepted stock analysed identity, none⟩ a →
      a.connection.owner = a.lastAccepted) := by
  refine ⟨fun id bufsize hsize => ⟨_, clientIdentityEncode_eq_some id.toClientIdentity hsize⟩, ?_, ?_, ?_, ?_, ?_,
    fun w len buf => answer_clientHello_keeps_iff, ?_⟩
  · intro hello bufsize hsize
    have hidentity := clientIdentityEncode_eq_some hello.identity.toClientIdentity (Nat.le_sub_of_add_le' hsize)
    have hroom : ¬ bufsize < 4 + 4 := by
      unfold controlHelloWireMaxSize at hsize
      omega
    rw [controlHelloEncode, if_neg hroom, hidentity]
    exact ⟨_, rfl⟩
  · intro id bufsize bytes buf out hencode hholds
    have hread : (clientIdentityRead buf 0 bytes.length out).run 0 =
        pure ((0, id.toClientIdentity.cut), 0 + bytes.length) := clientIdentityRead_encode id hencode hholds (Nat.le_refl 0)
    rwa [Nat.zero_add] at hread
  · exact fun hello bufsize bytes buf out hencode hholds => controlHelloRead_encode hello hencode hholds
  · intro buf len out
    rw [run_clientIdentityRead]
    have hle : identityReach buf 0 len 0 ≤ max 0 (0 + len.toNat) := identityReach_le
    rwa [Nat.zero_add, Nat.zero_max] at hle
  · exact fun buf len out => controlHelloRead_reach
  · exact fun stock analysed identity a hrun => Attribution.owner_run rfl hrun

namespace Frame

/-- A client that has said who it is. -/
def identified : List (ConnectionStep .p16) := [greet, hello]

/-- A payload that names another client and announces a label of 40 bytes. -/
def longLabel : List Byte := List.replicate 37 1 ++ [40]

end Frame

/-- A client says who it is with a clean hello. -/
theorem clientHello_keeps_iff_clean : ∃ a : Attribution .p16,
    Run.exec (Attribution.step Frame.workConfig) ⟨Frame.connection, none⟩ Frame.identified = some a ∧
      a.connection.owner = some (List.replicate 16 0) := by
  have hclean : Attribution.Clean ⟨{ Frame.connection with versionSupported := true }, none⟩ Frame.hello := by
    rintro - n ⟨hn, -⟩
    cases Option.some.inj hn
    exact .inr (.inl (by decide))
  refine ⟨_, rfl, ?_⟩
  have howner := (clientHello_keeps_iff Frame.workConfig).2.2.2.2.2.2.2 Frame.twoPackets ⟨[[]], false, Nat.one_pos⟩
    ⟨[], [], [], 0, []⟩ _ (.tail (a := Frame.hello) (.tail (a := Frame.greet) .refl trivial rfl) hclean rfl)
  exact howner.trans rfl

/-- A second hello is refused for its label, and from then on the client is taken for another one. -/
theorem clientHello_halfWritten : ∃ w : WorkConnection .p16,
    Run.exec (WorkConnection.step Frame.workConfig) Frame.connection Frame.identified = some w ∧
      w.owner = some (List.replicate 16 0) ∧
      (¬ ∃ n, HelloArrives (some 38) Frame.longLabel n ∧ HelloDecodes Frame.longLabel n) ∧
      ¬ w.SameIdentity (w.answer Frame.workConfig (.clientHello (some 38) Frame.longLabel)).1 ∧
      (w.answer Frame.workConfig (.clientHello (some 38) Frame.longLabel)).1.owner = some (List.replicate 16 1) := by
  refine ⟨_, rfl, rfl, ?_, ?_, rfl⟩
  · rintro ⟨n, -, -, hlabel, -⟩
    exact absurd hlabel (by decide)
  · rintro ⟨hidentity, -⟩
    exact absurd (congrArg ClientIdentity.mode hidentity) (by decide)
