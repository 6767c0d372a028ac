/-
# Tacenta.Session.Establish -- opening a session from either side

`establish_initiator_for` turns a published bundle into a pending session;
`establish_responder` turns an initial message into a session and its first
plaintext, and spends the prekeys the message named.  The responder's work up to
the shared secret, which only reads the store, is `respond`; the store is
written once, by `spend`, after the message has authenticated.
-/
import Tacenta.Session.State

set_option autoImplicit false

namespace Tacenta.Session

open Tacenta.Handshake (SessionError encodeEc decodeEc verifyBundle
  initiatorSharedSecret responderSharedSecret)
open Tacenta.Store (Identity PrekeyStore PublishedBundle lastResortFingerprint maxLastResortSeen)
open Tacenta.Wire (DecodedInitial absentId decodeInitial)

variable {K : Type}

/-! ## The initiator -/

/-- The session an initiator starts with, from the secrets it drew. -/
def initiatorSession (p : Primitives K) (ourIdentity : Identity) (theirBundle : PublishedBundle)
    (sk : K) (ephemeral ratchetPrivate : Arr 32) (dhOut : K) (kemCiphertext : Bytes) : Session K where
  triple := Triple.State.initSender p.kdf (p.kdf.bytes sk) (p.dh.publicKey ratchetPrivate)
    theirBundle.bundle.signedPrekey dhOut .tacenta
  braid := Braid.Braid.initiator p.kdf (p.kdf.bytes sk)
  ratchetPrivate := ratchetPrivate
  identityAd := Handshake.identityAd (ourIdentity.public p) theirBundle.bundle.identityKey
  ourIdentityPublic := ourIdentity.public p
  peerIdentityPublic := theirBundle.bundle.identityKey
  pendingInitial := some
    { ephemeralPublic := p.dh.publicKey ephemeral
      kemCiphertext := kemCiphertext
      signedPrekeyId := theirBundle.signedPrekeyId
      oneTimePrekeyId := theirBundle.oneTimePrekeyId
      kemPrekeyId := theirBundle.kemPrekeyId }
  establishedEphemeral := none

/-- The checks on a bundle that come before any random value is drawn. -/
def checkBundle (p : Primitives K) (theirBundle : PublishedBundle) (expectedIdentity : Arr 32) :
    Except Error Unit :=
  let bundle := theirBundle.bundle
  let oneTimeCanonical := match bundle.oneTimePrekey with
    | none => true
    | some k => Curve.isCanonicalX25519 k
  if bundle.identityKey ≠ expectedIdentity then .error .unexpectedIdentity
  else if bundle.oneTimePrekey.isSome ≠ decide (theirBundle.oneTimePrekeyId ≠ absentId) then
    .error .inconsistentBundle
  else if !Curve.isCanonicalX25519 bundle.identityKey ||
      !Curve.isCanonicalX25519 bundle.signedPrekey || !oneTimeCanonical then .error .badEncoding
  else
    match verifyBundle p.dh p.xed bundle with
    | .error e => .error (.handshake e)
    | .ok () => .ok ()

/-- Establish a session as the initiator against a known peer identity. -/
def establishInitiatorFor (p : Primitives K) (ourIdentity : Identity)
    (theirBundle : PublishedBundle) (expectedIdentity : Arr 32) (rng : Rng) :
    Except Error (Session K) × Rng :=
  match checkBundle p theirBundle expectedIdentity with
  | .error e => (.error e, rng)
  | .ok () =>
      let (ephemeral, rng) := randomSecret rng
      match p.kem.encapsulateTo theirBundle.bundle.kemPrekey rng with
      | (none, rng) => (.error .kem, rng)
      | (some (kemCiphertext, ss), rng) =>
          match initiatorSharedSecret p ourIdentity.secret ephemeral theirBundle.bundle ss with
          | .error e => (.error (.handshake e), rng)
          | .ok sk =>
              let (ratchetPrivate, rng) := randomSecret rng
              match p.dh.agree ratchetPrivate theirBundle.bundle.signedPrekey with
              | none => (.error (.handshake .nonContributoryAgreement), rng)
              | some dhOut =>
                  (.ok (initiatorSession p ourIdentity theirBundle sk ephemeral ratchetPrivate dhOut
                    kemCiphertext), rng)

/-- Establish a session with whatever identity the bundle carries. -/
def establishInitiator (p : Primitives K) (ourIdentity : Identity) (theirBundle : PublishedBundle)
    (rng : Rng) : Except Error (Session K) × Rng :=
  establishInitiatorFor p ourIdentity theirBundle theirBundle.bundle.identityKey rng

/-! ## What the responder reads from its store -/

def responderSignedPrekeySecret (store : PrekeyStore K) (id : UInt32) : Except Error (Arr 32) :=
  if id = store.signedPrekeyId then .ok store.signedPrekeySecret
  else
    match store.previousSignedPrekey with
    | some (secret, previousId, _) =>
        if previousId = id then .ok secret else .error .unknownPrekeyId
    | none => .error .unknownPrekeyId

/-- Which KEM private key an initial message names. -/
inductive KemKeySlot where
  | current
  | previous
  | oneTime (index : Nat)
  deriving DecidableEq, Repr

/-- The one-time entry an identifier names, by position. -/
def oneTimeSlot (store : PrekeyStore K) (id : UInt32) : Except Error (KemKeySlot × Bool) :=
  match store.kemOneTime.findIdx? fun entry => entry.1 = id with
  | some index => .ok (.oneTime index, false)
  | none => .error .unknownPrekeyId

/-- The slot, and whether it is a last-resort one. -/
def responderKemSlot (store : PrekeyStore K) (id : UInt32) : Except Error (KemKeySlot × Bool) :=
  if id = store.kemId then
    if store.legacyLastResortBlocked.contains id then .error .legacyLastResortRecord
    else .ok (.current, true)
  else
    match store.previousKem with
    | some (_, previousId, _) =>
        if previousId = id then
          if store.legacyLastResortBlocked.contains id then .error .legacyLastResortRecord
          else .ok (.previous, true)
        else oneTimeSlot store id
    | none => oneTimeSlot store id

def kemPairOf (store : PrekeyStore K) : KemKeySlot → Except Error KeyPair
  | .current => .ok store.kem
  | .previous =>
      match store.previousKem with
      | some (pair, _, _) => .ok pair
      | none => .error .unknownPrekeyId
  | .oneTime index =>
      match store.kemOneTime[index]? with
      | some entry => .ok entry.2.1
      | none => .error .unknownPrekeyId

def responderDecapsulate (p : Primitives K) (store : PrekeyStore K) (slot : KemKeySlot)
    (ciphertext : Bytes) : Except Error K :=
  match kemPairOf store slot with
  | .error e => .error e
  | .ok pair =>
      match p.kem.decapsulateFrom pair ciphertext with
      | some secret => .ok secret
      | none => .error .kem

def responderCurveInputs (p : Primitives K) (identity ephemeral : Bytes) :
    Except Error (Arr 32 × Arr 32) :=
  match decodeEc identity with
  | none => .error .badEncoding
  | some initiatorIdentity =>
      if !p.dh.isValidIdentityKey initiatorIdentity then .error (.handshake .invalidIdentityKey)
      else
        match decodeEc ephemeral with
        | none => .error .badEncoding
        | some initiatorEphemeral => .ok (initiatorIdentity, initiatorEphemeral)

def responderOneTimeKey (store : PrekeyStore K) (id : UInt32) : Except Error (Option (Arr 32)) :=
  if id = absentId then .ok none
  else
    match store.peekOneTime id with
    | some secret => .ok (some secret)
    | none => .error .unknownPrekeyId

/-- The fingerprint to record, for a last-resort handshake that is new and has
room in its key's budget. -/
def responderReplayFingerprint [DecidableEq K] (p : Primitives K) (store : PrekeyStore K)
    (kemId : UInt32) (sk : K) (lastResort : Bool) : Except Error (Option K) :=
  if !lastResort then .ok none
  else
    let fingerprint := lastResortFingerprint p.kdf sk
    let replayed := store.lastResortSeen.any fun entry => decide (entry.2 = fingerprint)
    if replayed then .error .replayedLastResort
    else if store.lastResortSeenFor kemId ≥ maxLastResortSeen then .error .lastResortRecordFull
    else .ok (some fingerprint)

/-! ## The responder -/

/-- What the responder holds once the secret is derived and checked. -/
structure Responded (K : Type) where
  decoded : DecodedInitial
  signedPrekeySecret : Arr 32
  lastResort : Bool
  initiatorIdentity : Arr 32
  sk : K
  fingerprint : Option K

/-- `establish_responder` up to the shared secret: the identifiers the message
names, its curve keys, the decapsulation, the agreements, the replay record. -/
def respond [DecidableEq K] (p : Primitives K) (ourIdentity : Identity) (store : PrekeyStore K)
    (initialMessage : Bytes) : Except Error (Responded K) := do
  let decoded ← (decodeInitial initialMessage).mapError .decode
  let signedPrekeySecret ← responderSignedPrekeySecret store decoded.signedPrekeyId
  let (kemSlot, lastResort) ← responderKemSlot store decoded.kemPrekeyId
  let (initiatorIdentity, initiatorEphemeral) ←
    responderCurveInputs p decoded.identity decoded.ephemeral
  let oneTimeKey ← responderOneTimeKey store decoded.oneTimePrekeyId
  let ss ← responderDecapsulate p store kemSlot decoded.kemCiphertext
  let sk ← (responderSharedSecret p ourIdentity.secret signedPrekeySecret oneTimeKey
    initiatorIdentity initiatorEphemeral ss).mapError .handshake
  let fingerprint ← responderReplayFingerprint p store decoded.kemPrekeyId sk lastResort
  pure { decoded, signedPrekeySecret, lastResort, initiatorIdentity, sk, fingerprint }

/-- The session a responder starts with. -/
def responderSession (p : Primitives K) (ourIdentity : Identity) (r : Responded K) : Session K where
  triple := Triple.State.initReceiver p.kdf (p.kdf.bytes r.sk) (p.dh.publicKey r.signedPrekeySecret)
    .tacenta
  braid := Braid.Braid.responder p.kdf (p.kdf.bytes r.sk)
  ratchetPrivate := r.signedPrekeySecret
  identityAd := Handshake.identityAd r.initiatorIdentity (ourIdentity.public p)
  ourIdentityPublic := ourIdentity.public p
  peerIdentityPublic := r.initiatorIdentity
  pendingInitial := none
  establishedEphemeral := some r.decoded.ephemeral

/-- Delete the one-time prekeys an authenticated message consumed, and remember
the handshake when its KEM key is a last-resort one. -/
def spend (store : PrekeyStore K) (r : Responded K) : PrekeyStore K :=
  let store := if !r.lastResort then store.takeOneTimeKem r.decoded.kemPrekeyId else store
  let store := if r.decoded.oneTimePrekeyId ≠ absentId then
    store.takeOneTime r.decoded.oneTimePrekeyId else store
  match r.fingerprint with
  | some fp => { store with lastResortSeen := store.lastResortSeen ++ [(r.decoded.kemPrekeyId, fp)] }
  | none => store

/-- Establish a session as the responder, from an incoming initial message. -/
def establishResponder [DecidableEq K] (p : Primitives K) (ourIdentity : Identity)
    (ourPrekeys : PrekeyStore K) (initialMessage : Bytes) (rng : Rng) :
    PrekeyStore K × Except Error (Session K × Bytes) × Rng :=
  match respond p ourIdentity ourPrekeys initialMessage with
  | .error e => (ourPrekeys, .error e, rng)
  | .ok r =>
      match (responderSession p ourIdentity r).decryptRatchet p r.decoded.message rng with
      | (_, .error e, rng) => (ourPrekeys, .error e, rng)
      | (session, .ok plaintext, rng) => (spend ourPrekeys r, .ok (session, plaintext), rng)

end Tacenta.Session
