/-
# Tacenta.Session.Invariant -- the relations between a session's fields

`structuralInvariant` and `leafInvariants` are the two halves of
`Session::invariant`, clause by clause in the crate's order.  `Valid` is the
same predicate as a structure, and it is inductive:

* `Established.valid`: both sides of a handshake start with it;
* `encrypt_valid`, `decrypt_valid`: every call keeps it, on success and on
  refusal, whatever bytes arrive.
-/
import Tacenta.Session.Epochs
import Tacenta.Session.Responder

set_option autoImplicit false

namespace Tacenta

open Tacenta.Handshake (encodeEc decodeEc)

variable {K : Type}

namespace Session

/-! ## The predicate -/

/-- (a) The ratchet's private key belongs to the public key it advertises. -/
def ratchetKeyPaired (p : Primitives K) (s : Session K) : Bool :=
  decide (p.dh.publicKey s.ratchetPrivate = s.triple.sendingPublic)

/-- (b) The sparse ratchet's epoch follows the Braid's: level with it in tags 7
to 10, one behind in the others. -/
def epochsRelated (s : Session K) : Bool :=
  if s.braid.failed then true
  else if 7 ≤ s.braid.stateTag ∧ s.braid.stateTag ≤ 10 then
    decide (s.triple.epoch = s.braid.epoch)
  else decide (s.triple.epoch.checkedAdd 1 = some s.braid.epoch)

/-- (c) The associated data is the two identities', initiator first. -/
def adOriented (s : Session K) : Bool :=
  decide (s.identityAd =
    if s.isResponder then Handshake.identityAd s.peerIdentityPublic s.ourIdentityPublic
    else Handshake.identityAd s.ourIdentityPublic s.peerIdentityPublic)

/-- (d) The Braid and the sparse ratchet are on the session's side. -/
def rolesAgree (s : Session K) : Bool :=
  (match s.braid.isInitiator with
    | some braidInitiator => braidInitiator != s.isResponder
    | none => true) &&
  decide (s.triple.direction = .a2b) != s.isResponder

/-- (e) An unanswered initiator is not a responder. -/
def oneHandshake (s : Session K) : Bool :=
  !(s.pendingInitial.isSome && s.establishedEphemeral.isSome)

/-- (f) The pending ciphertext has its length, the established ephemeral is an
`EncodeEC` value. -/
def handshakeFieldsFormed (s : Session K) : Bool :=
  (match s.pendingInitial with
    | some pending => decide (pending.kemCiphertext.length = MlKem.ciphertextLen)
    | none => true) &&
  (match s.establishedEphemeral with
    | some ephemeral => (decodeEc ephemeral).isSome
    | none => true)

/-- (h) The curve keys stored are identity keys, or canonical. -/
def curveKeysCanonical (p : Primitives K) (s : Session K) : Bool :=
  p.dh.isValidIdentityKey s.ourIdentityPublic && p.dh.isValidIdentityKey s.peerIdentityPublic &&
  (match s.pendingInitial with
    | some pending => Curve.isCanonicalX25519 pending.ephemeralPublic
    | none => true)

def structuralInvariant (p : Primitives K) (s : Session K) : Bool :=
  s.ratchetKeyPaired p && s.epochsRelated && s.adOriented && s.rolesAgree && s.oneHandshake &&
    s.handshakeFieldsFormed && s.curveKeysCanonical p

/-- (g) Each half is one its own constructors build. -/
def leafInvariants (p : Primitives K) (s : Session K) : Bool :=
  s.triple.invariant && s.braid.invariant p.incKem

def invariant (p : Primitives K) (s : Session K) : Bool :=
  s.structuralInvariant p && s.leafInvariants p

/-! ## The same, as propositions -/

/-- The associated data a session's role calls for. -/
def roleAd (s : Session K) : Bytes :=
  if s.isResponder then Handshake.identityAd s.peerIdentityPublic s.ourIdentityPublic
  else Handshake.identityAd s.ourIdentityPublic s.peerIdentityPublic

structure Valid (p : Primitives K) (s : Session K) : Prop where
  paired : Paired p s
  related : s.braid.failed = false → s.braid.state.emitted = s.triple.epoch.toNat
  oriented : s.identityAd = s.roleAd
  braidRole : ∀ b, s.braid.isInitiator = some b → b = !s.isResponder
  direction : s.triple.direction = .a2b ↔ s.isResponder = false
  oneHandshake : s.pendingInitial = none ∨ s.establishedEphemeral = none
  pending : ∀ m, s.pendingInitial = some m →
    m.kemCiphertext.length = MlKem.ciphertextLen ∧ Curve.isCanonicalX25519 m.ephemeralPublic = true
  ephemeral : ∀ e, s.establishedEphemeral = some e → (decodeEc e).isSome = true
  ours : p.dh.isValidIdentityKey s.ourIdentityPublic = true
  peer : p.dh.isValidIdentityKey s.peerIdentityPublic = true
  triple : Triple.Valid s.triple
  braid : Braid.State.Valid p.incKem s.braid.state

variable {p : Primitives K} {s : Session K}

/-- Clause (b) says that the sparse ratchet is at the last key the Braid emitted. -/
theorem epochsRelated_iff (positive : s.braid.failed = false → 1 ≤ s.braid.state.epoch) :
    s.epochsRelated = true ↔
      (s.braid.failed = false → s.braid.state.emitted = s.triple.epoch.toNat) := by
  have behind : ∀ e folded : UInt64, 1 ≤ e →
      (folded.checkedAdd 1 = some e ↔ e.toNat - 1 = folded.toNat) := by
    intro e folded one
    rw [UInt64.le_iff_toNat_le, UInt64.toNat_one] at one
    rw [UInt64.checkedAdd_eq_some, UInt64.toNat_one]
    omega
  have level : ∀ e folded : UInt64, folded = e ↔ e.toNat = folded.toNat := by
    intro e folded
    rw [← UInt64.toNat_inj, eq_comm]
  obtain ⟨triple, ⟨state⟩, _, _, _, _, _, _⟩ := s
  cases state with
  | failed => simp [epochsRelated, Braid.Braid.failed]
  | ct1Sampled | ekReceivedCt1Sampled | ct1Acknowledged | ct2Sampled =>
      simp only [Braid.Braid.failed, forall_const, Braid.State.emitted, ← level]
      exact decide_eq_true_iff
  | _ =>
      have one := positive rfl
      simp only [Braid.State.epoch] at one
      simp only [Braid.Braid.failed, forall_const, Braid.State.emitted, ← behind _ _ one]
      exact decide_eq_true_iff

theorem rolesAgree_iff : s.rolesAgree = true ↔
    (∀ b, s.braid.isInitiator = some b → b = !s.isResponder) ∧
      (s.triple.direction = .a2b ↔ s.isResponder = false) := by
  have braid : (match s.braid.isInitiator with
      | some braidInitiator => braidInitiator != s.isResponder
      | none => true) = true ↔ ∀ b, s.braid.isInitiator = some b → b = !s.isResponder := by
    cases s.braid.isInitiator with
    | none => simp
    | some b => cases b <;> cases s.isResponder <;> simp
  rw [rolesAgree, Bool.and_eq_true, braid]
  cases s.isResponder <;> simp

theorem handshakeFieldsFormed_iff : s.handshakeFieldsFormed = true ↔
    (∀ m, s.pendingInitial = some m → m.kemCiphertext.length = MlKem.ciphertextLen) ∧
      ∀ e, s.establishedEphemeral = some e → (decodeEc e).isSome = true := by
  rw [handshakeFieldsFormed, Bool.and_eq_true]
  cases s.pendingInitial <;> cases s.establishedEphemeral <;> simp

theorem curveKeysCanonical_iff : s.curveKeysCanonical p = true ↔
    p.dh.isValidIdentityKey s.ourIdentityPublic = true ∧
      p.dh.isValidIdentityKey s.peerIdentityPublic = true ∧
      ∀ m, s.pendingInitial = some m → Curve.isCanonicalX25519 m.ephemeralPublic = true := by
  rw [curveKeysCanonical, Bool.and_eq_true, Bool.and_eq_true, and_assoc]
  cases s.pendingInitial <;> simp

/-- A live Braid that satisfies its own invariant is at an epoch. -/
theorem epoch_pos (braid : Braid.State.Valid p.incKem s.braid.state)
    (alive : s.braid.failed = false) : 1 ≤ s.braid.state.epoch :=
  braid.epoch_pos (Braid.alive_iff.1 alive)

theorem invariant_iff : s.invariant p = true ↔ Valid p s := by
  rw [invariant, structuralInvariant, leafInvariants]
  simp only [Bool.and_eq_true]
  constructor
  · rintro ⟨⟨⟨⟨⟨⟨⟨paired, related⟩, oriented⟩, roles⟩, one⟩, formed⟩, keys⟩, triple, braid⟩
    rw [epochsRelated_iff (epoch_pos braid)] at related
    rw [rolesAgree_iff] at roles
    rw [handshakeFieldsFormed_iff] at formed
    rw [curveKeysCanonical_iff] at keys
    rw [ratchetKeyPaired, decide_eq_true_eq] at paired
    refine ⟨paired, related, of_decide_eq_true oriented, roles.1, roles.2, ?_,
      fun m h => ⟨formed.1 m h, keys.2.2 m h⟩, formed.2, keys.1, keys.2.1,
      Triple.invariant_iff.1 triple, braid⟩
    rw [oneHandshake] at one
    cases pending : s.pendingInitial with
    | none => exact .inl rfl
    | some m =>
        rw [pending] at one
        exact .inr (by simpa using one)
  · intro valid
    have paired : s.ratchetKeyPaired p = true := by
      rw [ratchetKeyPaired, decide_eq_true_eq]
      exact valid.paired
    refine ⟨⟨⟨⟨⟨⟨⟨paired, ?_⟩, decide_eq_true valid.oriented⟩, ?_⟩, ?_⟩, ?_⟩, ?_⟩,
      Triple.invariant_iff.2 valid.triple, valid.braid⟩
    · exact (epochsRelated_iff (epoch_pos valid.braid)).2 valid.related
    · exact rolesAgree_iff.2 ⟨valid.braidRole, valid.direction⟩
    · rcases valid.oneHandshake with h | h <;> simp [oneHandshake, h]
    · exact handshakeFieldsFormed_iff.2 ⟨fun m h => (valid.pending m h).1, valid.ephemeral⟩
    · exact curveKeysCanonical_iff.2 ⟨valid.ours, valid.peer, fun m h => (valid.pending m h).2⟩

/-! ## Encrypting -/

/-- What a send of the Braid emits counts one epoch, or none. -/
theorem send_counts {b braid : Braid.Braid K} {rng rng' : Rng} {agMsg : Braid.Msg} {epoch : UInt64}
    {output : Option (Braid.Output K)} (positive : 1 ≤ b.state.epoch)
    (ran : b.send p.kdf p.incKem rng = (agMsg, epoch, output, braid, rng'))
    (survived : braid.failed = false) {folded : UInt64} (same : b.state.emitted = folded.toNat) :
    braid.state.emitted = folded.toNat + (output.map spqrOutput).toList.length := by
  simp only [Braid.Braid.send, Prod.mk.injEq] at ran
  obtain ⟨-, -, emitted, rfl, -⟩ := ran
  rw [Braid.alive_iff] at survived
  obtain ⟨-, emits⟩ := Braid.stepSend_emitted positive rng survived
  rw [emitted] at emits
  obtain ⟨rfl, kept⟩ | ⟨o, rfl, -, climbs⟩ := emits
  · simp only at kept ⊢
    rw [kept, same]
    rfl
  · simp only at climbs ⊢
    rw [climbs, same]
    rfl

theorem Encrypts.valid (wf : p.incKem.WellFormed) (sized : p.kdf.Sized) {s' : Session K}
    {plaintext : Bytes} {rng rng' : Rng} {result : Except Error Bytes}
    (ends : Encrypts p s plaintext rng s' result rng') (valid : Valid p s) : Valid p s' := by
  have sending := ends.sendingPublic
  cases ends with
  | ended | refused => exact valid
  | kemFailed =>
      refine ⟨valid.paired, fun h => absurd h (by simp [Braid.Braid.failed]), valid.oriented,
        fun b h => ?_, valid.direction, valid.oneHandshake, valid.pending, valid.ephemeral,
        valid.ours, valid.peer, valid.triple, Braid.State.failed_valid⟩
      simp [Braid.Braid.isInitiator, Braid.State.sendsHeader] at h
  | sent alive ran survived sent =>
      obtain ⟨triple, direction⟩ := valid.triple.send sent
      obtain ⟨_, _, _, _, -, sparse, -, -⟩ := Triple.State.send_ok sent
      have positive := epoch_pos valid.braid alive
      have counted := send_counts positive ran survived (valid.related alive)
      have ranState : (Braid.stepSend p.kdf p.incKem rng s.braid.state).2.2.1 = _ :=
        congrArg (fun r => r.2.2.2.1.state) ran
      simp only at ranState
      refine ⟨?_, fun _ => ?_, valid.oriented, fun b h => ?_, ?_, valid.oneHandshake, valid.pending,
        valid.ephemeral, valid.ours, valid.peer, triple, ?_⟩
      · rw [Paired, sending.1]
        exact valid.paired
      · simp only [counted, Triple.State.epoch, (Spqr.State.send_frame sparse).1]
      · refine valid.braidRole b ?_
        have same : (Braid.stepSend p.kdf p.incKem rng s.braid.state).2.2.1.isInitiator =
            s.braid.state.isInitiator :=
          Braid.stepSend_isInitiator rng (by rw [ranState]; exact Braid.alive_iff.1 survived)
        rw [ranState] at same
        exact same.symm.trans h
      · rw [direction]
        exact valid.direction
      · rw [← ranState]
        exact Braid.stepSend_invariant wf sized valid.braid rng

theorem encrypt_valid (wf : p.incKem.WellFormed) (sized : p.kdf.Sized) (valid : Valid p s)
    (plaintext : Bytes) (rng : Rng) : Valid p (s.encrypt p plaintext rng).1 :=
  (encrypt_ends p s plaintext rng).valid wf sized valid

/-! ## Decrypting -/

/-- What a receive of the Braid emits counts one epoch, or none. -/
theorem receive_counts {b : Braid.Braid K} {msg : Braid.Msg} {output : Option (Braid.Output K)}
    {braid : Braid.Braid K} (positive : 1 ≤ b.state.epoch)
    (agreement : (b.receive p.kdf p.incKem msg).2 = (output, braid)) (survived : braid.failed = false)
    {folded : UInt64} (same : b.state.emitted = folded.toNat) :
    braid.state.emitted = folded.toNat + (output.map spqrOutput).toList.length := by
  rw [Braid.receive_snd, Prod.mk.injEq] at agreement
  obtain ⟨emitted, rfl⟩ := agreement
  rw [Braid.alive_iff] at survived
  obtain ⟨-, emits⟩ := Braid.stepReceive_emitted positive msg survived
  rw [emitted] at emits
  obtain ⟨rfl, kept⟩ | ⟨o, rfl, -, climbs⟩ := emits
  · simp only at kept ⊢
    rw [kept, same]
    rfl
  · simp only at climbs ⊢
    rw [climbs, same]
    rfl

/-- **An opened message keeps the invariant.** -/
theorem Opens.valid (honest : p.dh.Honest) (wf : p.incKem.WellFormed) (sized : p.kdf.Sized)
    {message : Bytes} {rng : Rng} {decoded : Wire.DecodedMessage}
    {output : Option (Braid.Output K)} {braid : Braid.Braid K} {dhOutRecv dhOutSend : K}
    {triple : Triple.State K} {key : K} {plaintext : Bytes}
    (opens : Opens p s message rng decoded output braid dhOutRecv dhOutSend triple key plaintext)
    (valid : Valid p s) : Valid p (s.adopted (randomSecret rng).1 triple braid) := by
  obtain ⟨w, thinned, received⟩ := receiveWithEviction_ok opens.received
  have canonical : Curve.isCanonicalX25519 decoded.header.dh = true :=
    Wire.decodeMessage_canonical opens.read
  obtain ⟨tripleValid, direction⟩ := (thinned.valid valid.triple).receive
    (show Curve.isCanonicalX25519 (tripleHeaderOf decoded.header).dr.dh = true from canonical)
    (honest.publicKey_canonical _) received
  have positive := epoch_pos valid.braid opens.alive
  have state : (Braid.stepReceive p.kdf p.incKem (msgOf decoded.header) s.braid.state).2 =
      braid.state := by
    have agreement := opens.agreement
    rw [Braid.receive_snd, Prod.mk.injEq] at agreement
    rw [← agreement.2]
  refine ⟨opens.paired valid.paired, fun survived => ?_, valid.oriented, fun b h => ?_, ?_,
    valid.oneHandshake, valid.pending, valid.ephemeral, valid.ours, valid.peer, tripleValid, ?_⟩
  · have counted := receive_counts positive opens.agreement survived (valid.related opens.alive)
    obtain ⟨_, _, -, sparse, -⟩ := Triple.State.receive_ok received
    obtain ⟨left, -, hw⟩ := thinned.postQuantum
    have epoch := (Spqr.State.receive_frame sparse).1
    rw [hw] at epoch
    show braid.state.emitted = triple.postQuantum.epoch.toNat
    rw [counted, epoch]
    rfl
  · have alive : braid.state ≠ .failed := by
      intro dead
      rw [adopted, Braid.Braid.isInitiator, dead] at h
      exact absurd h (by simp [Braid.State.sendsHeader])
    have same := (Braid.stepReceive_takes p.kdf p.incKem (msgOf decoded.header)
      s.braid.state).isInitiator (by rw [state]; exact alive)
    rw [state] at same
    exact valid.braidRole b (same.symm.trans h)
  · show triple.direction = .a2b ↔ _
    obtain ⟨left, -, hw⟩ := thinned.postQuantum
    rw [direction, Triple.State.direction, hw]
    exact valid.direction
  · show Braid.State.Valid p.incKem braid.state
    rw [← state]
    exact Braid.stepReceive_invariant wf sized valid.braid _

theorem decrypt_valid [DecidableEq K] (honest : p.dh.Honest) (wf : p.incKem.WellFormed)
    (sized : p.kdf.Sized)
    (valid : Valid p s) (message : Bytes) (rng : Rng) : Valid p (s.decrypt p message rng).1 := by
  obtain ⟨e, rng', refused⟩ | ⟨inner, decoded, output, braid, dhOutRecv, dhOutSend, triple, key,
    plaintext, -, opens, opened⟩ := decrypt_cases p s message rng
  · rw [refused]
    exact valid
  · rw [opened]
    have adopted := opens.valid honest wf sized valid
    exact ⟨adopted.paired, adopted.related, adopted.oriented, adopted.braidRole, adopted.direction,
      .inl rfl, fun m h => by simp at h, adopted.ephemeral, adopted.ours, adopted.peer,
      adopted.triple, adopted.braid⟩

/-! ## Establishment -/

/-- What a bundle's checks leave: an identity key, and a canonical signed prekey. -/
theorem checkBundle_ok {bundle : Store.PublishedBundle} {expected : Arr 32}
    (checked : checkBundle p bundle expected = .ok ()) :
    p.dh.isValidIdentityKey bundle.bundle.identityKey = true ∧
      Curve.isCanonicalX25519 bundle.bundle.signedPrekey = true := by
  unfold checkBundle at checked
  extract_lets inner oneTimeCanonical at checked
  split at checked
  · simp at checked
  · split at checked
    · simp at checked
    · split at checked
      · simp at checked
      · rename_i canonical
        split at checked
        · simp at checked
        · rename_i verified
          unfold Handshake.verifyBundle at verified
          split at verified
          · simp at verified
          · rename_i identity
            simp only [Bool.not_eq_true, Bool.or_eq_false_iff, Bool.not_eq_false'] at canonical identity
            exact ⟨by simpa using identity, canonical.1.2⟩

theorem Initiates.valid (honest : p.dh.Honest) (ciphertext_length : ∀ pk r,
      (p.kem.encapsulate pk r).1.length = MlKem.ciphertextLen)
    {identity : Store.Identity} {bundle : Store.PublishedBundle} {expected : Arr 32}
    {ephemeral ratchetPrivate : Arr 32} {kemCiphertext : Bytes} {ss sk dhOut : K}
    (initiates : Initiates p identity bundle expected ephemeral ratchetPrivate kemCiphertext ss sk
      dhOut) :
    Valid p (initiatorSession p identity bundle sk ephemeral ratchetPrivate dhOut kemCiphertext) := by
  obtain ⟨theirs, signed⟩ := checkBundle_ok initiates.checked
  obtain ⟨r, encapsulated⟩ := initiates.encapsulated
  refine ⟨rfl, fun _ => rfl, rfl, fun b h => ?_, ⟨fun _ => rfl, fun _ => rfl⟩, .inr rfl,
    fun m h => ?_, fun e h => by simp [initiatorSession] at h, honest.publicKey_valid _, theirs,
    Triple.initSender_valid (honest.publicKey_canonical _) signed, ?_⟩
  · rw [← Option.some.inj h]
    rfl
  · rw [← Option.some.inj h]
    refine ⟨?_, honest.publicKey_canonical _⟩
    have length := ciphertext_length bundle.bundle.kemPrekey r
    rw [encapsulated] at length
    exact length
  · simp [initiatorSession, Braid.Braid.initiator, Braid.State.Valid, Braid.Braid.invariant]

theorem Responds.valid [DecidableEq K] (honest : p.dh.Honest) {identity : Store.Identity}
    {store : Store.PrekeyStore K} {message : Bytes} {r : Responded K} {slot : KemKeySlot}
    {initiatorEphemeral : Arr 32} {oneTimeKey : Option (Arr 32)} {ss : K}
    (responds : Responds p identity store message r slot initiatorEphemeral oneTimeKey ss) :
    Valid p (responderSession p identity r) := by
  obtain ⟨theirs, decodes⟩ : p.dh.isValidIdentityKey r.initiatorIdentity = true ∧
      decodeEc r.decoded.ephemeral = some initiatorEphemeral := by
    have curves := responds.curves
    unfold responderCurveInputs at curves
    split at curves
    · simp at curves
    · split at curves
      · simp at curves
      · rename_i identity
        split at curves
        · simp at curves
        · rename_i decodes
          simp only [Except.ok.injEq, Prod.mk.injEq] at curves
          rw [← curves.1, ← curves.2]
          exact ⟨by simpa using identity, decodes⟩
  refine ⟨rfl, fun _ => rfl, rfl, fun b h => ?_, ⟨fun h => ?_, fun h => ?_⟩, .inl rfl,
    fun m h => by simp [responderSession] at h, fun e h => ?_, honest.publicKey_valid _, theirs,
    Triple.initReceiver_valid (honest.publicKey_canonical _), ?_⟩
  · rw [← Option.some.inj h]
    rfl
  · cases h
  · cases h
  · rw [← Option.some.inj h, decodes]
    rfl
  · simp only [responderSession, Braid.Braid.responder, Braid.State.Valid, Braid.Braid.invariant,
      Bool.and_eq_true, decide_eq_true_eq]
    exact ⟨⟨by decide, Braid.hdrDecoder_invariant⟩, Braid.decoderSized_new _⟩

/-- **Both sides of a handshake start with the invariant.** -/
theorem Established.valid [DecidableEq K] (honest : p.dh.Honest) (wf : p.incKem.WellFormed)
    (sized : p.kdf.Sized)
    (ciphertext_length : ∀ pk r, (p.kem.encapsulate pk r).1.length = MlKem.ciphertextLen)
    (established : Established p s) : Valid p s := by
  cases established with
  | initiator established =>
      obtain ⟨_, _, _, _, _, _, initiates, rfl⟩ := establishInitiatorFor_ok established
      exact initiates.valid honest ciphertext_length
  | responder established =>
      obtain ⟨r, _, _, _, _, _, _, _, responded, -, opens, rfl⟩ := establishResponder_ok established
      obtain ⟨_, _, _, _, responds⟩ := respond_ok responded
      exact opens.valid honest wf sized (responds.valid honest)

end Session

end Tacenta
