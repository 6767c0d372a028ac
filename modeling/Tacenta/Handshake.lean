/-
# Tacenta.Handshake -- the PQXDH derivation

`tacenta-session` and the handshake half of the session crate: the order the
agreements and the encapsulated secret are assembled in, the derivation of `SK`,
the encodings that bind the two identities, and the checks on a bundle.

`responderSharedSecret_eq` is what the handshake is for: on honest keys the two
sides derive one secret.
-/
import Tacenta.Wire

set_option autoImplicit false

namespace Tacenta

variable {K : Type}

namespace Handshake

open Wire (encodeEcCurve25519 ecLen)

/-- Thirty-two bytes of `0xFF`. -/
def fPrefix : Bytes := List.replicate 32 0xff

def skInfo : Bytes := ascii "Tacenta_CURVE25519_SHA-256_ML-KEM-1024"

def encodeKemMlKem1024 : UInt8 := 0x08

/-- `KM`: the agreements in order, the one-time one when there is one, then the
encapsulated secret. -/
def km (kdf : Kdf K) (dh1 dh2 dh3 : K) (dh4 : Option K) (ss : K) : Bytes :=
  kdf.bytes dh1 ++ kdf.bytes dh2 ++ kdf.bytes dh3 ++
    (match dh4 with
      | none => []
      | some d4 => kdf.bytes d4) ++ kdf.bytes ss

/-- `KDF(KM)`. -/
def kdfSk (kdf : Kdf K) (kmBytes : Bytes) : K :=
  kdf.hkdf Kdf.zeroSalt (fPrefix ++ kmBytes) skInfo 0

def sharedSecret (kdf : Kdf K) (dh1 dh2 dh3 : K) (dh4 : Option K) (ss : K) : K :=
  kdfSk kdf (km kdf dh1 dh2 dh3 dh4 ss)

def associatedData (encodedIkA encodedIkB : Bytes) : Bytes := encodedIkA ++ encodedIkB

/-- `EncodeEC`. -/
def encodeEc (pk : Arr 32) : Bytes := encodeEcCurve25519 :: pk.toList

/-- `EncodeKEM`. -/
def encodeKem (pk : Bytes) : Bytes := encodeKemMlKem1024 :: pk

/-- `DecodeEC`: a curve public key, in its canonical encoding. -/
def decodeEc (bytes : Bytes) : Option (Arr 32) :=
  if bytes.length = ecLen ∧ bytes.head? = some encodeEcCurve25519 then
    match Arr.ofBytes? 32 (bytes.drop 1) with
    | some k => if Curve.isCanonicalX25519 k then some k else none
    | none => none
  else none

/-- Associated data binding both identities, initiator first. -/
def identityAd (initiator responder : Arr 32) : Bytes :=
  associatedData (encodeEc initiator) (encodeEc responder)

@[simp] theorem length_encodeEc (pk : Arr 32) : (encodeEc pk).length = 33 := by
  simp [encodeEc]

theorem encodeEc_inj {a b : Arr 32} (h : encodeEc a = encodeEc b) : a = b := by
  simp only [encodeEc, List.cons.injEq, true_and] at h
  exact Arr.toList_inj.1 h

@[simp] theorem length_identityAd (a b : Arr 32) : (identityAd a b).length = 66 := by
  simp [identityAd, associatedData]

theorem decodeEc_eq_some {bytes : Bytes} {k : Arr 32} :
    decodeEc bytes = some k ↔ bytes = encodeEc k ∧ Curve.isCanonicalX25519 k = true := by
  constructor
  · intro h
    unfold decodeEc at h
    split at h
    · rename_i shape
      split at h
      · rename_i k' found
        split at h
        · rename_i canonical
          simp only [Option.some.injEq] at h
          subst h
          refine ⟨?_, canonical⟩
          cases bytes with
          | nil => simp at shape
          | cons b rest =>
              simp only [List.head?_cons, Option.some.injEq] at shape
              rw [encodeEc, ← Arr.ofBytes?_eq_some.1 found, shape.2, List.drop_one, List.tail_cons]
        · simp at h
      · simp at h
    · simp at h
  · rintro ⟨rfl, canonical⟩
    simp [decodeEc, encodeEc, ecLen, canonical]

/-! ## The bundle -/

structure PreKeyBundle where
  identityKey : Arr 32
  signedPrekey : Arr 32
  signedPrekeySignature : Arr 64
  kemPrekey : Bytes
  kemPrekeySignature : Arr 64
  oneTimePrekey : Option (Arr 32)
  deriving DecidableEq

inductive SessionError where
  | badSignedPrekeySignature
  | badKemPrekeySignature
  | nonContributoryAgreement
  | invalidIdentityKey
  deriving DecidableEq, Repr

/-- Both prekey signatures verify under an identity key that is one. -/
def verifyBundle (dh : Dh K) (xed : XEdDsa) (bundle : PreKeyBundle) : Except SessionError Unit :=
  if !dh.isValidIdentityKey bundle.identityKey then .error .invalidIdentityKey
  else if !xed.verify bundle.identityKey (encodeEc bundle.signedPrekey)
      bundle.signedPrekeySignature then .error .badSignedPrekeySignature
  else if !xed.verify bundle.identityKey (encodeKem bundle.kemPrekey)
      bundle.kemPrekeySignature then .error .badKemPrekeySignature
  else .ok ()

def contributory (value : Option K) : Except SessionError K :=
  match value with
  | some secret => .ok secret
  | none => .error .nonContributoryAgreement

/-- The agreement with an optional key: none when there is no key. -/
def optionalAgreement {A : Type} (key : Option A) (agree : A → Option K) :
    Except SessionError (Option K) :=
  match key with
  | some k => (contributory (agree k)).map some
  | none => .ok none

/-- The initiator's side. -/
def initiatorSharedSecret (p : Primitives K) (identityPrivate ephemeralPrivate : Arr 32)
    (bundle : PreKeyBundle) (encapsulated : K) : Except SessionError K := do
  verifyBundle p.dh p.xed bundle
  let dh1 ← contributory (p.dh.agree identityPrivate bundle.signedPrekey)
  let dh2 ← contributory (p.dh.agree ephemeralPrivate bundle.identityKey)
  let dh3 ← contributory (p.dh.agree ephemeralPrivate bundle.signedPrekey)
  let dh4 ← optionalAgreement bundle.oneTimePrekey fun opk => p.dh.agree ephemeralPrivate opk
  pure (sharedSecret p.kdf dh1 dh2 dh3 dh4 encapsulated)

/-- The responder's side: the same agreements from the other private keys. -/
def responderSharedSecret (p : Primitives K) (identityPrivate signedPrekeyPrivate : Arr 32)
    (oneTimePrekeyPrivate : Option (Arr 32)) (initiatorIdentity initiatorEphemeral : Arr 32)
    (encapsulated : K) : Except SessionError K :=
  if !p.dh.isValidIdentityKey initiatorIdentity then .error .invalidIdentityKey
  else do
    let dh1 ← contributory (p.dh.agree signedPrekeyPrivate initiatorIdentity)
    let dh2 ← contributory (p.dh.agree identityPrivate initiatorEphemeral)
    let dh3 ← contributory (p.dh.agree signedPrekeyPrivate initiatorEphemeral)
    let dh4 ← optionalAgreement oneTimePrekeyPrivate fun opk => p.dh.agree opk initiatorEphemeral
    pure (sharedSecret p.kdf dh1 dh2 dh3 dh4 encapsulated)

/-- **Both sides derive one secret.**  A bundle of the responder's public keys
that the initiator accepts, and the initiator's public keys handed back: the
responder derives what the initiator derived. -/
theorem responderSharedSecret_eq {p : Primitives K} (symmetric : p.dh.Agrees)
    (honest : p.dh.Honest) {ikA ekA ikB spkB : Arr 32} {opkB : Option (Arr 32)}
    {bundle : PreKeyBundle} {ss sk : K}
    (identity : bundle.identityKey = p.dh.publicKey ikB)
    (signed : bundle.signedPrekey = p.dh.publicKey spkB)
    (oneTime : bundle.oneTimePrekey = opkB.map p.dh.publicKey)
    (derived : initiatorSharedSecret p ikA ekA bundle ss = .ok sk) :
    responderSharedSecret p ikB spkB opkB (p.dh.publicKey ikA) (p.dh.publicKey ekA) ss = .ok sk := by
  unfold initiatorSharedSecret at derived
  rw [identity, signed, oneTime] at derived
  simp only [bind, Except.bind] at derived
  split at derived
  · simp at derived
  · rw [symmetric.symmetric ikA spkB, symmetric.symmetric ekA ikB,
      symmetric.symmetric ekA spkB] at derived
    rw [responderSharedSecret, honest.publicKey_valid]
    cases opkB with
    | none => simpa [bind, Except.bind, optionalAgreement] using derived
    | some opk =>
        simp only [optionalAgreement, Option.map_some, symmetric.symmetric ekA opk] at derived
        simpa [bind, Except.bind, optionalAgreement] using derived

end Handshake

end Tacenta
