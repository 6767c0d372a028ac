/-
# Tacenta.Session.Opening -- the first message

An initiator answers a bundle with a session and a first message; the owner of
the bundle opens the message with the private halves its store finds under the
identifiers the message names.  `Offers` says what a bundle is, `Answers` what
the store finds.

* `establishInitiatorFor_offers`: an offered bundle is accepted;
* `establishResponder_answers`: the store's owner opens the first message, with
  the initiator's secret and associated data.
-/
import Tacenta.Session.Responder

set_option autoImplicit false

namespace Tacenta

/-! ## Both halves of the first message key -/

section FirstKey

variable {K : Type} (kdf : Kdf K)

/-- The header of a first message. -/
def firstHeader (ratchetPublic : Arr 32) : Triple.Header where
  dr := { dh := ratchetPublic, pn := 0, n := 0 }
  epoch := 0
  pqN := 1

/-- The key of a first message. -/
def firstKey (sk : Bytes) (dhOut : K) : K :=
  let (ec, pq) := Triple.splitSecret kdf sk
  let (_, ck) := Ratchet.kdfRk kdf ec dhOut .tacenta
  let (_, k1, _) := Spqr.kdfInit kdf (kdf.bytes pq)
  Triple.combine kdf (Ratchet.kdfCk kdf ck).2 (Spqr.kdfCk kdf k1 1).2

theorem initSender_send (sk : Bytes) (ourPub peerPub : Arr 32) (dhOut : K) :
    ((Triple.State.initSender kdf sk ourPub peerPub dhOut .tacenta).send kdf 0 none).2 =
      .ok (firstHeader ourPub, firstKey kdf sk dhOut) := rfl

theorem classical_first (ec : K) (ourPub theirPub newPub : Arr 32) (dhOut dhOutSend : K) :
    (Ratchet.receive kdf (Ratchet.initReceiver ec ourPub .tacenta) (firstHeader theirPub).dr dhOut
      dhOutSend newPub).2 =
        .ok (Ratchet.kdfCk kdf (Ratchet.kdfRk kdf ec dhOut .tacenta).2).2 := rfl

theorem postQuantum_first (pq : Bytes) :
    ((Spqr.State.initBob kdf pq).receive kdf 0 none 1).2 =
      .ok (Spqr.kdfCk kdf (Spqr.kdfInit kdf pq).2.1 1).2 := rfl

/-- The party that waited derives the key, whatever it draws for its answer. -/
theorem initReceiver_receive (sk : Bytes) (ourPub theirPub newPub : Arr 32) (dhOut dhOutSend : K) :
    ∃ next, (Triple.State.initReceiver kdf sk ourPub .tacenta).receive kdf (firstHeader theirPub)
      dhOut dhOutSend newPub none = .ok (next, firstKey kdf sk dhOut) := by
  have classical := classical_first kdf (Triple.splitSecret kdf sk).1 ourPub theirPub newPub dhOut
    dhOutSend
  have postQuantum := postQuantum_first kdf (kdf.bytes (Triple.splitSecret kdf sk).2)
  unfold Triple.State.receive
  have start : (Triple.State.initReceiver kdf sk ourPub .tacenta).classical =
      Ratchet.initReceiver (Triple.splitSecret kdf sk).1 ourPub .tacenta := rfl
  have start' : (Triple.State.initReceiver kdf sk ourPub .tacenta).postQuantum =
      Spqr.State.initBob kdf (kdf.bytes (Triple.splitSecret kdf sk).2) := rfl
  rw [start, start']
  generalize Ratchet.receive kdf _ _ _ _ _ = received at classical ⊢
  obtain ⟨c, _⟩ := received
  subst classical
  have numbers : (firstHeader theirPub).epoch = 0 ∧ (firstHeader theirPub).pqN = 1 := ⟨rfl, rfl⟩
  rw [numbers.1, numbers.2]
  generalize (Spqr.State.initBob kdf _).receive kdf 0 none 1 = received at postQuantum ⊢
  obtain ⟨q, _⟩ := received
  subst postQuantum
  exact ⟨_, rfl⟩

end FirstKey

namespace Session

open Tacenta.Handshake (encodeEc encodeKem PreKeyBundle verifyBundle initiatorSharedSecret
  responderSharedSecret responderSharedSecret_eq)
open Tacenta.Store (Identity PrekeyStore PublishedBundle)
open Tacenta.Wire (DecodedInitial absentId decodeInitial concatAd encodeMessage)

variable {K : Type} {p : Primitives K}

/-! ## Bundles -/

/-- The private halves behind a bundle. -/
structure BundleKeys where
  signed : Arr 32
  oneTime : Option (Arr 32)
  kem : KeyPair

/-- A bundle `owner` publishes: the public halves of `keys`, the prekeys signed,
the KEM pair a generated one. -/
structure Offers (p : Primitives K) (owner : Identity) (b : PublishedBundle) (keys : BundleKeys) :
    Prop where
  identity : b.bundle.identityKey = owner.public p
  signedPrekey : b.bundle.signedPrekey = p.dh.publicKey keys.signed
  signedVerifies : p.xed.verify (owner.public p) (encodeEc b.bundle.signedPrekey)
    b.bundle.signedPrekeySignature = true
  kemPrekey : b.bundle.kemPrekey = MlKem.publicKey keys.kem
  kemVerifies : p.xed.verify (owner.public p) (encodeKem b.bundle.kemPrekey)
    b.bundle.kemPrekeySignature = true
  generated : ∃ rng, keys.kem = (p.kem.generate rng).1
  oneTime : b.bundle.oneTimePrekey = keys.oneTime.map p.dh.publicKey
  present : keys.oneTime.isSome = decide (b.oneTimePrekeyId ≠ absentId)

variable {owner initiator : Identity} {b : PublishedBundle} {keys : BundleKeys}

theorem Offers.verifies (offers : Offers p owner b keys) (honest : p.dh.Honest) :
    verifyBundle p.dh p.xed b.bundle = .ok () := by
  unfold verifyBundle
  rw [offers.identity, offers.signedVerifies, offers.kemVerifies,
    show p.dh.isValidIdentityKey (owner.public p) = true from honest.publicKey_valid _]
  rfl

theorem Offers.checks (offers : Offers p owner b keys) (honest : p.dh.Honest) :
    checkBundle p b (owner.public p) = .ok () := by
  have present : b.bundle.oneTimePrekey.isSome = decide (b.oneTimePrekeyId ≠ absentId) := by
    rw [offers.oneTime, Option.isSome_map, offers.present]
  have identity : Curve.isCanonicalX25519 (owner.public p) = true := honest.publicKey_canonical _
  have signedPrekey : Curve.isCanonicalX25519 b.bundle.signedPrekey = true := by
    rw [offers.signedPrekey]
    exact honest.publicKey_canonical _
  unfold checkBundle
  simp only [offers.verifies honest, present, identity, signedPrekey, offers.identity, ne_eq,
    not_true_eq_false, if_false, Bool.not_true, Bool.false_or]
  rw [offers.oneTime]
  cases keys.oneTime with
  | none => simp
  | some secret => simp [honest.publicKey_canonical]

/-- Encapsulating to a generated key pair yields a secret it decapsulates. -/
theorem encapsulateTo_generate (honest : p.kem.Honest) (seed rng : Rng) :
    ∃ ciphertext ss rng', p.kem.encapsulateTo (MlKem.publicKey (p.kem.generate seed).1) rng =
        (some (ciphertext, ss), rng') ∧
      p.kem.decapsulateFrom (p.kem.generate seed).1 ciphertext = some ss ∧
      ciphertext.length = MlKem.ciphertextLen := by
  set bytes := (fillBytes 64 seed).1
  have pair : (p.kem.generate seed).1 =
      ⟨(p.kem.generateKeyPair bytes).1 ++ (p.kem.generateKeyPair bytes).2⟩ := rfl
  have public_ : MlKem.publicKey (p.kem.generate seed).1 = (p.kem.generateKeyPair bytes).2 := by
    rw [pair, MlKem.publicKey, List.drop_left' (honest.sk_length bytes)]
  refine ⟨(p.kem.encapsulate (p.kem.generateKeyPair bytes).2 (fillBytes 32 rng).1).1,
    (p.kem.encapsulate (p.kem.generateKeyPair bytes).2 (fillBytes 32 rng).1).2, (fillBytes 32 rng).2,
    ?_, ?_, honest.ciphertext_length _ _⟩
  · rw [public_]
    unfold MlKem.encapsulateTo
    simp only [honest.pk_length, honest.pk_valid, ne_eq, not_true_eq_false, Bool.true_eq_false,
      or_self, if_false]
  · have sk : MlKem.privateKeyLen ≤
        ((p.kem.generateKeyPair bytes).1 ++ (p.kem.generateKeyPair bytes).2).length := by
      rw [List.length_append, honest.sk_length]
      omega
    rw [pair]
    unfold MlKem.decapsulateFrom
    rw [if_neg (by simp [honest.ciphertext_length]), if_neg (Nat.not_lt.2 sk),
      List.take_left' (honest.sk_length bytes), honest.decapsulate_encapsulate]

/-- What an initiator drew and derived, answering a bundle. -/
structure Initiated (p : Primitives K) (initiator : Identity) (b : PublishedBundle)
    (keys : BundleKeys) (ephemeral ratchetPrivate : Arr 32) (kemCiphertext : Bytes)
    (ss sk dhOut : K) : Prop where
  derived : initiatorSharedSecret p initiator.secret ephemeral b.bundle ss = .ok sk
  agreed : p.dh.agree ratchetPrivate b.bundle.signedPrekey = some dhOut
  decapsulates : p.kem.decapsulateFrom keys.kem kemCiphertext = some ss
  length : kemCiphertext.length = MlKem.ciphertextLen

/-- Agreements with honest keys all contribute. -/
theorem Offers.derives (offers : Offers p owner b keys) (honest : p.dh.Honest)
    (agrees : p.dh.Agrees) (secret ephemeral : Arr 32) (ss : K) :
    ∃ sk, initiatorSharedSecret p secret ephemeral b.bundle ss = .ok sk := by
  obtain ⟨dh1, h1⟩ := agrees.contributory secret keys.signed
  obtain ⟨dh2, h2⟩ := agrees.contributory ephemeral owner.secret
  obtain ⟨dh3, h3⟩ := agrees.contributory ephemeral keys.signed
  unfold initiatorSharedSecret
  rw [offers.verifies honest, offers.identity, offers.signedPrekey, offers.oneTime]
  simp only [Identity.public, h1, h2, h3, Handshake.contributory, bind, Except.bind]
  cases keys.oneTime with
  | none => exact ⟨_, rfl⟩
  | some opk =>
      obtain ⟨dh4, h4⟩ := agrees.contributory ephemeral opk
      simp only [Option.map_some, Handshake.optionalAgreement, h4, Handshake.contributory,
        Except.map]
      exact ⟨_, rfl⟩

/-- **An offered bundle is accepted**, by any initiator and under any randomness. -/
theorem establishInitiatorFor_offers (offers : Offers p owner b keys) (honest : p.dh.Honest)
    (agrees : p.dh.Agrees) (kemHonest : p.kem.Honest) (initiator : Identity) (rng : Rng) :
    ∃ ephemeral ratchetPrivate kemCiphertext ss sk dhOut rng',
      Initiated p initiator b keys ephemeral ratchetPrivate kemCiphertext ss sk dhOut ∧
      establishInitiatorFor p initiator b (owner.public p) rng =
        (.ok (initiatorSession p initiator b sk ephemeral ratchetPrivate dhOut kemCiphertext),
          rng') := by
  obtain ⟨seed, generated⟩ := offers.generated
  set ephemeral := (randomSecret rng).1 with hephemeral
  obtain ⟨kemCiphertext, ss, rng1, encapsulated, decapsulates, length⟩ :=
    encapsulateTo_generate kemHonest seed (randomSecret rng).2
  obtain ⟨sk, derived⟩ := offers.derives honest agrees initiator.secret ephemeral ss
  set ratchetPrivate := (randomSecret rng1).1 with hratchet
  obtain ⟨dhOut, agreed⟩ := agrees.contributory ratchetPrivate keys.signed
  rw [← offers.signedPrekey] at agreed
  rw [← generated, ← offers.kemPrekey] at encapsulated
  refine ⟨ephemeral, ratchetPrivate, kemCiphertext, ss, sk, dhOut, (randomSecret rng1).2,
    ⟨derived, agreed, generated ▸ decapsulates, length⟩, ?_⟩
  unfold establishInitiatorFor
  simp only [offers.checks honest, encapsulated, ← hephemeral, derived, ← hratchet, agreed]

/-! ## The first message -/

/-- The agreement's first message, after the key pair was sampled. -/
theorem initiator_send (incHonest : p.incKem.Honest) (secret : Bytes) (rng : Rng) :
    ∃ msg next rng', (Braid.Braid.initiator p.kdf secret).send p.kdf p.incKem rng =
      (msg, 0, none, next, rng') ∧ next.failed = false := by
  obtain ⟨raw, generated⟩ := incHonest.generates (fillBytes 64 rng).1
  have sampled : Kem.IncrementalKeyPair.generate p.incKem rng =
      (some ⟨raw⟩, (fillBytes 64 rng).2) := by
    simp [Kem.IncrementalKeyPair.generate, generated]
  unfold Braid.Braid.send Braid.Braid.initiator Braid.stepSend
  have opening : ∀ (auth : Braid.Auth K) kp enc,
      Braid.Braid.reported ⟨Braid.State.keysSampled 1 auth kp enc⟩ = 0 := by
    intro auth kp enc
    simp only [Braid.Braid.reported, Braid.State.epoch]
    decide
  simp only [sampled, opening]
  exact ⟨_, ⟨.keysSampled 1 _ ⟨raw⟩ _⟩, _, rfl, rfl⟩

/-- A party waiting for a header produces no key from what it is sent. -/
theorem responder_receive (secret : Bytes) (msg : Braid.Msg) :
    ((Braid.Braid.responder p.kdf secret).receive p.kdf p.incKem msg).2.1 = none := by
  have quiet : ∀ auth dec,
      (Braid.stepReceive p.kdf p.incKem msg (.noHeaderReceived 1 auth dec)).1 = none := by
    intro auth dec
    simp only [Braid.stepReceive]
    split
    · split <;> rfl
    · rfl
  have silent := quiet (Braid.Auth.init p.kdf 1 secret) Braid.hdrDecoder
  unfold Braid.Braid.receive Braid.Braid.responder
  simp only [silent]

/-- What an initiator's first message wraps: its header and its ciphertext. -/
def firstMessage (p : Primitives K) (identityAd : Bytes) (sk : K) (dhOut : K)
    (ratchetPublic : Arr 32) (agMsg : Braid.Msg) (plaintext : Bytes) : Bytes :=
  let composite := compositeOf (firstHeader ratchetPublic) agMsg
  let (enc, mac, iv) := Ratchet.messageKeys p.kdf (firstKey p.kdf (p.kdf.bytes sk) dhOut) .tacenta
  encodeMessage composite (p.aead.encrypt enc mac iv plaintext (concatAd identityAd composite))

theorem initiatorSession_encrypt (incHonest : p.incKem.Honest) (initiator : Identity)
    (b : PublishedBundle) (sk : K) (ephemeral ratchetPrivate : Arr 32) (dhOut : K)
    (kemCiphertext plaintext : Bytes) (rng : Rng) :
    ∃ sent agMsg rng',
      (initiatorSession p initiator b sk ephemeral ratchetPrivate dhOut kemCiphertext).encrypt p
          plaintext rng =
        (sent, .ok (Wire.encodeInitial (encodeEc (initiator.public p))
          (encodeEc (p.dh.publicKey ephemeral)) kemCiphertext b.signedPrekeyId b.oneTimePrekeyId
          b.kemPrekeyId (firstMessage p (Handshake.identityAd (initiator.public p) b.bundle.identityKey)
            sk dhOut (p.dh.publicKey ratchetPrivate) agMsg plaintext)), rng') := by
  obtain ⟨agMsg, next, rng', agreed, alive⟩ := initiator_send incHonest (p.kdf.bytes sk) rng
  have keys := initSender_send p.kdf (p.kdf.bytes sk) (p.dh.publicKey ratchetPrivate)
    b.bundle.signedPrekey dhOut
  unfold encrypt
  rw [if_neg (by simp [initiatorSession, Braid.Braid.initiator, Braid.Braid.failed])]
  simp only [initiatorSession, agreed, alive, Option.map_none, Bool.false_eq_true, if_false]
  generalize Triple.State.send p.kdf _ 0 none = drawn at keys ⊢
  obtain ⟨candidate, _⟩ := drawn
  simp only at keys
  subst keys
  exact ⟨_, agMsg, rng', rfl⟩

/-- The session a responder starts with opens the first message. -/
theorem responderSession_decryptRatchet (honest : p.dh.Honest)
    (agrees : p.dh.Agrees) (inverts : p.aead.Inverts) (owner : Identity) (r : Responded K)
    {ratchetPrivate : Arr 32} {dhOut : K}
    (agreed : p.dh.agree ratchetPrivate (p.dh.publicKey r.signedPrekeySecret) = some dhOut)
    (agMsg : Braid.Msg) (plaintext : Bytes) (rng : Rng) :
    ∃ session rng', (responderSession p owner r).decryptRatchet p
        (firstMessage p (Handshake.identityAd r.initiatorIdentity (owner.public p)) r.sk dhOut
          (p.dh.publicKey ratchetPrivate) agMsg plaintext) rng = (session, .ok plaintext, rng') ∧
      session.identityAd = Handshake.identityAd r.initiatorIdentity (owner.public p) ∧
      session.peerIdentityPublic = r.initiatorIdentity ∧
      session.ourIdentityPublic = owner.public p := by
  set composite := compositeOf (firstHeader (p.dh.publicKey ratchetPrivate)) agMsg with hcomposite
  have canonical : Curve.isCanonicalX25519 composite.dh = true := honest.publicKey_canonical _
  have none_ := responder_receive (p := p) (p.kdf.bytes r.sk) agMsg
  obtain ⟨dhOutSend, answers⟩ := agrees.contributory (randomSecret rng).1 ratchetPrivate
  obtain ⟨next, received⟩ := initReceiver_receive p.kdf (p.kdf.bytes r.sk)
    (p.dh.publicKey r.signedPrekeySecret) (p.dh.publicKey ratchetPrivate)
    (p.dh.publicKey (randomSecret rng).1) dhOut dhOutSend
  rw [agrees.symmetric] at agreed
  unfold decryptRatchet
  rw [if_neg (by simp [responderSession, Braid.Braid.responder, Braid.Braid.failed])]
  simp only [firstMessage, ← hcomposite, Wire.decodeMessage_encodeMessage _ _ canonical]
  have braid : (responderSession p owner r).braid = Braid.Braid.responder p.kdf (p.kdf.bytes r.sk) :=
    rfl
  have start : (responderSession p owner r).triple = Triple.State.initReceiver p.kdf
      (p.kdf.bytes r.sk) (p.dh.publicKey r.signedPrekeySecret) .tacenta := rfl
  have private_ : (responderSession p owner r).ratchetPrivate = r.signedPrekeySecret := rfl
  have dh : composite.dh = p.dh.publicKey ratchetPrivate := rfl
  have message : msgOf composite = agMsg := msgOf_compositeOf _ _
  have header : tripleHeaderOf composite = firstHeader (p.dh.publicKey ratchetPrivate) := rfl
  rw [braid, start, private_, dh, message, header]
  simp only [agreed, answers, none_, Option.map_none]
  unfold receiveWithEviction
  rw [received]
  simp only [responderSession, inverts _ _ _ _ _]
  exact ⟨_, _, rfl, rfl, rfl, rfl⟩

/-! ## Opening it -/

/-- The initial message an initiator's first encrypt produces. -/
def initialMessage (p : Primitives K) (initiator : Identity) (b : PublishedBundle)
    (ephemeral ratchetPrivate : Arr 32) (kemCiphertext : Bytes) (sk dhOut : K) (agMsg : Braid.Msg)
    (plaintext : Bytes) : Bytes :=
  Wire.encodeInitial (encodeEc (initiator.public p)) (encodeEc (p.dh.publicKey ephemeral))
    kemCiphertext b.signedPrekeyId b.oneTimePrekeyId b.kemPrekeyId
    (firstMessage p (Handshake.identityAd (initiator.public p) b.bundle.identityKey) sk dhOut
      (p.dh.publicKey ratchetPrivate) agMsg plaintext)

/-- The first message an initiator sends in answer to a bundle. -/
def firstMessageTo (p : Primitives K) (initiator : Identity) (b : PublishedBundle)
    (expected : Arr 32) (plaintext : Bytes) (rng rng' : Rng) : Option Bytes :=
  match establishInitiatorFor p initiator b expected rng with
  | (.ok session, _) =>
      match session.encrypt p plaintext rng' with
      | (_, .ok message, _) => some message
      | _ => none
  | _ => none

/-- What the owner of the bundle holds of it, once it passed the replay check. -/
def openedInitial (p : Primitives K) (initiator : Identity) (b : PublishedBundle)
    (keys : BundleKeys) (lastResort : Bool) (ephemeral ratchetPrivate : Arr 32)
    (kemCiphertext : Bytes) (sk dhOut : K) (agMsg : Braid.Msg) (plaintext : Bytes)
    (fingerprint : Option K) : Responded K where
  decoded :=
    { identity := encodeEc (initiator.public p)
      ephemeral := encodeEc (p.dh.publicKey ephemeral)
      kemCiphertext := kemCiphertext
      signedPrekeyId := b.signedPrekeyId
      oneTimePrekeyId := b.oneTimePrekeyId
      kemPrekeyId := b.kemPrekeyId
      message := firstMessage p (Handshake.identityAd (initiator.public p) b.bundle.identityKey)
        sk dhOut (p.dh.publicKey ratchetPrivate) agMsg plaintext }
  signedPrekeySecret := keys.signed
  lastResort := lastResort
  initiatorIdentity := initiator.public p
  sk := sk
  fingerprint := fingerprint

/-- What the owner of the bundle holds of an initial message that wraps `message`,
once it passed the replay check. -/
def heldInitial (p : Primitives K) (initiator : Identity) (b : PublishedBundle) (keys : BundleKeys)
    (lastResort : Bool) (ephemeral : Arr 32) (kemCiphertext : Bytes) (sk : K) (message : Bytes)
    (fingerprint : Option K) : Responded K where
  decoded :=
    { identity := encodeEc (initiator.public p)
      ephemeral := encodeEc (p.dh.publicKey ephemeral)
      kemCiphertext := kemCiphertext
      signedPrekeyId := b.signedPrekeyId
      oneTimePrekeyId := b.oneTimePrekeyId
      kemPrekeyId := b.kemPrekeyId
      message := message }
  signedPrekeySecret := keys.signed
  lastResort := lastResort
  initiatorIdentity := initiator.public p
  sk := sk
  fingerprint := fingerprint

/-- An initial message reads as what it was made of. -/
theorem decodeInitial_wraps {ephemeral ratchetPrivate : Arr 32} {kemCiphertext : Bytes} {ss sk dhOut : K}
    (honest : p.dh.Honest)
    (initiated : Initiated p initiator b keys ephemeral ratchetPrivate kemCiphertext ss sk dhOut)
    (lastResort : Bool) (message : Bytes) (fingerprint : Option K) :
    decodeInitial (Wire.encodeInitial (encodeEc (initiator.public p))
        (encodeEc (p.dh.publicKey ephemeral)) kemCiphertext b.signedPrekeyId b.oneTimePrekeyId
        b.kemPrekeyId message) =
      .ok (heldInitial p initiator b keys lastResort ephemeral kemCiphertext sk message
        fingerprint).decoded := by
  have small : kemCiphertext.length < 2 ^ 32 := by
    rw [initiated.length]
    decide
  exact Wire.decodeInitial_encodeInitial b.signedPrekeyId b.oneTimePrekeyId b.kemPrekeyId message
    (honest.publicKey_canonical _) (honest.publicKey_canonical _) small

/-- What a store finds under the identifiers a bundle names. -/
structure Answers (store : PrekeyStore K) (b : PublishedBundle) (keys : BundleKeys)
    (slot : KemKeySlot) (lastResort : Bool) : Prop where
  signed : responderSignedPrekeySecret store b.signedPrekeyId = .ok keys.signed
  kemSlot : responderKemSlot store b.kemPrekeyId = .ok (slot, lastResort)
  kem : kemPairOf store slot = .ok keys.kem
  oneTime : responderOneTimeKey store b.oneTimePrekeyId = .ok keys.oneTime

section Responder

variable [DecidableEq K] {store : PrekeyStore K} {slot : KemKeySlot} {lastResort : Bool}
  {ephemeral ratchetPrivate : Arr 32} {kemCiphertext : Bytes} {ss sk dhOut : K}

/-- Up to the replay check, the responder follows the initiator, whatever the
initial message wraps. -/
theorem respond_wraps (honest : p.dh.Honest) (agrees : p.dh.Agrees)
    (offers : Offers p owner b keys)
    (initiated : Initiated p initiator b keys ephemeral ratchetPrivate kemCiphertext ss sk dhOut)
    (answers : Answers store b keys slot lastResort) (message : Bytes) :
    respond p owner store (Wire.encodeInitial (encodeEc (initiator.public p))
        (encodeEc (p.dh.publicKey ephemeral)) kemCiphertext b.signedPrekeyId b.oneTimePrekeyId
        b.kemPrekeyId message) =
      (responderReplayFingerprint p store b.kemPrekeyId sk lastResort).map
        (heldInitial p initiator b keys lastResort ephemeral kemCiphertext sk message) := by
  have identity : Curve.isCanonicalX25519 (initiator.public p) = true := honest.publicKey_canonical _
  have fresh : Curve.isCanonicalX25519 (p.dh.publicKey ephemeral) = true :=
    honest.publicKey_canonical _
  have curves : responderCurveInputs p (encodeEc (initiator.public p))
      (encodeEc (p.dh.publicKey ephemeral)) = .ok (initiator.public p, p.dh.publicKey ephemeral) := by
    have valid : p.dh.isValidIdentityKey (initiator.public p) = true := honest.publicKey_valid _
    unfold responderCurveInputs
    rw [Handshake.decodeEc_eq_some.2 ⟨rfl, identity⟩, Handshake.decodeEc_eq_some.2 ⟨rfl, fresh⟩]
    simp [valid]
  have decapsulated : responderDecapsulate p store slot kemCiphertext = .ok ss := by
    unfold responderDecapsulate
    rw [answers.kem]
    simp [initiated.decapsulates]
  have derived : responderSharedSecret p owner.secret keys.signed keys.oneTime
      (initiator.public p) (p.dh.publicKey ephemeral) ss = .ok sk :=
    responderSharedSecret_eq agrees honest offers.identity offers.signedPrekey offers.oneTime
      initiated.derived
  unfold respond
  rw [decodeInitial_wraps honest initiated lastResort message none]
  simp only [heldInitial, Except.mapError, bind, Except.bind, answers.signed, answers.kemSlot,
    answers.oneTime, curves, decapsulated, derived]
  cases responderReplayFingerprint p store b.kemPrekeyId sk lastResort <;> rfl

/-- The first message is one that wraps. -/
theorem respond_answers (honest : p.dh.Honest) (agrees : p.dh.Agrees)
    (offers : Offers p owner b keys)
    (initiated : Initiated p initiator b keys ephemeral ratchetPrivate kemCiphertext ss sk dhOut)
    (answers : Answers store b keys slot lastResort) (agMsg : Braid.Msg) (plaintext : Bytes) :
    respond p owner store (initialMessage p initiator b ephemeral ratchetPrivate kemCiphertext sk
        dhOut agMsg plaintext) =
      (responderReplayFingerprint p store b.kemPrekeyId sk lastResort).map
        (openedInitial p initiator b keys lastResort ephemeral ratchetPrivate kemCiphertext sk dhOut
          agMsg plaintext) :=
  respond_wraps honest agrees offers initiated answers _

/-- **The owner opens the first message**, once the replay check passes: with
the initiator's secret, its plaintext, and both identities in order. -/
theorem establishResponder_answers (honest : p.dh.Honest) (agrees : p.dh.Agrees)
    (inverts : p.aead.Inverts) (offers : Offers p owner b keys)
    (initiated : Initiated p initiator b keys ephemeral ratchetPrivate kemCiphertext ss sk dhOut)
    (answers : Answers store b keys slot lastResort) {fingerprint : Option K}
    (fresh : responderReplayFingerprint p store b.kemPrekeyId sk lastResort = .ok fingerprint)
    (agMsg : Braid.Msg) (plaintext : Bytes) (rng : Rng) :
    ∃ r session rng',
      respond p owner store (initialMessage p initiator b ephemeral ratchetPrivate kemCiphertext sk
        dhOut agMsg plaintext) = .ok r ∧
      establishResponder p owner store (initialMessage p initiator b ephemeral ratchetPrivate
        kemCiphertext sk dhOut agMsg plaintext) rng = (spend store r, .ok (session, plaintext), rng') ∧
      (r.sk = sk ∧ r.lastResort = lastResort ∧ r.decoded.kemPrekeyId = b.kemPrekeyId ∧
        r.decoded.oneTimePrekeyId = b.oneTimePrekeyId) ∧
      session.identityAd = Handshake.identityAd (initiator.public p) (owner.public p) ∧
      session.peerIdentityPublic = initiator.public p ∧
      session.ourIdentityPublic = owner.public p := by
  set r := openedInitial p initiator b keys lastResort ephemeral ratchetPrivate kemCiphertext sk
    dhOut agMsg plaintext fingerprint with hr
  have responded := respond_answers honest agrees offers initiated answers agMsg plaintext
  rw [fresh] at responded
  have agreed : p.dh.agree ratchetPrivate (p.dh.publicKey r.signedPrekeySecret) = some dhOut := by
    rw [← initiated.agreed, offers.signedPrekey]
    rfl
  obtain ⟨session, rng', opened, ad, peer, ours⟩ := responderSession_decryptRatchet honest agrees
    inverts owner r agreed agMsg plaintext rng
  refine ⟨r, session, rng', responded, ?_, ⟨rfl, rfl, rfl, rfl⟩, ad, peer, ours⟩
  have message : r.decoded.message = firstMessage p (Handshake.identityAd r.initiatorIdentity
      (owner.public p)) r.sk dhOut (p.dh.publicKey ratchetPrivate) agMsg plaintext := by
    rw [← offers.identity]
    rfl
  unfold establishResponder
  rw [show respond p owner store _ = .ok r from responded]
  simp only [message, opened]

end Responder

end Session

end Tacenta
