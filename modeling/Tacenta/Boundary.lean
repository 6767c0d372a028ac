/-
# Tacenta.Boundary -- the trusted primitives

What the core takes from outside the repository: the X25519 of `dalek`, the
ML-KEM of `libcrux`, AES-CBC, and the XEdDSA the prekeys are signed with.  Each
is a record of the functions the boundary crate calls; what the boundary crate
itself decides around them (which lengths it refuses, which bytes it splits
where) is defined over the record, as the crate writes it.

Nothing here is assumed about the functions.  A result that needs a property of
a primitive names it: `Dh.Honest`, `MlKem.Honest`, `IncKem.Honest`,
`XEdDsa.Correct`, `Aead.Inverts`.
-/
import Tacenta.Kdf

set_option autoImplicit false

namespace Tacenta

variable {K : Type}

/-! ## Curve public keys -/

namespace Curve

/-- Whether `k` is the one encoding of its X25519 public key: bit 255 clear, and
the little-endian value below `2^255 - 19`. -/
def isCanonicalX25519 (k : Arr 32) : Bool :=
  if k[31] ≥ 0x80 then false
  else
    let middleAllFf := (List.finRange 30).all fun i => k[i.val + 1] == 0xff
    !(k[31] == 0x7f && middleAllFf && decide (k[0] ≥ 0xed))

/-- The little-endian bytes of `p - 1`. -/
def pMinusOne : Bytes := 0xec :: (List.replicate 30 0xff ++ [0x7f])

/-- Compare two big-endian digit strings, the value against the bound. -/
def atMost : List (UInt8 × UInt8) → Bool
  | [] => true
  | (byte, bound) :: rest =>
      if byte < bound then true else if bound < byte then false else atMost rest

/-- The boundary crate's own spelling of the check, from the most significant
byte down against `p - 1`. -/
def isCanonicalFieldElement (u : Arr 32) : Bool :=
  if u[31] &&& 0x80 ≠ 0 then false else atMost (u.toList.zip pMinusOne).reverse

end Curve

/-! ## X25519 -/

/-- The Diffie-Hellman functions, over the type of shared secrets. -/
structure Dh (K : Type) where
  /-- `PublicKey::from(&StaticSecret)`. -/
  publicKey : Arr 32 → Arr 32
  /-- `StaticSecret::diffie_hellman`, with `was_contributory`. -/
  diffieHellman : Arr 32 → Arr 32 → K × Bool
  /-- `MontgomeryPoint::to_edwards(0)` is a point, and torsion-free. -/
  isTorsionFree : Arr 32 → Bool

namespace Dh

variable (dh : Dh K)

/-- `PrivateKey::agree`: the shared secret, refused when the peer's key did not
contribute to it. -/
def agree (secret peer : Arr 32) : Option K :=
  let shared := dh.diffieHellman secret peer
  if !shared.2 then none else some shared.1

def isPrimeOrderPublic (key : Arr 32) : Bool :=
  if !Curve.isCanonicalFieldElement key then false else dh.isTorsionFree key

/-- A canonical encoding of a point of the prime-order subgroup. -/
def isValidIdentityKey (key : Arr 32) : Bool :=
  Curve.isCanonicalX25519 key && dh.isPrimeOrderPublic key

/-- Keys X25519 computes are canonical encodings of points of the prime-order
subgroup. -/
structure Honest : Prop where
  publicKey_canonical : ∀ secret, Curve.isCanonicalX25519 (dh.publicKey secret) = true
  publicKey_valid : ∀ secret, dh.isValidIdentityKey (dh.publicKey secret) = true

/-- Agreement is symmetric, and contributory on honest keys. -/
structure Agrees : Prop where
  symmetric : ∀ a b, dh.agree a (dh.publicKey b) = dh.agree b (dh.publicKey a)
  contributory : ∀ a b, ∃ shared, dh.agree a (dh.publicKey b) = some shared

end Dh

/-! ## ML-KEM-1024 -/

/-- The whole-ciphertext KEM of the handshake. -/
structure MlKem (K : Type) where
  /-- `generate_key_pair(seed)`: the private and the public key. -/
  generateKeyPair : Arr 64 → Bytes × Bytes
  validatePublicKey : Bytes → Bool
  validatePrivateKeyOnly : Bytes → Bool
  /-- `encapsulate(pk, randomness)`: ciphertext and shared secret. -/
  encapsulate : Bytes → Arr 32 → Bytes × K
  decapsulate : Bytes → Bytes → K

/-- A handshake KEM key pair: the private key's bytes, then the public key's. -/
structure KeyPair where
  raw : Bytes
  deriving DecidableEq

namespace MlKem

def privateKeyLen : Nat := 3168
def publicKeyLen : Nat := 1568
def ciphertextLen : Nat := 1568

variable (kem : MlKem K)

/-- `KeyPair::generate`. -/
def generate (rng : Rng) : KeyPair × Rng :=
  let (seed, rng) := fillBytes 64 rng
  let (sk, pk) := kem.generateKeyPair seed
  (⟨sk ++ pk⟩, rng)

/-- `KeyPair::public_key`. -/
def publicKey (pair : KeyPair) : Bytes := pair.raw.drop privateKeyLen

/-- `embedded_public_key`. -/
def embeddedPublicKey (sk : Bytes) : Bytes :=
  (sk.drop (sk.length - publicKeyLen - 64)).take publicKeyLen

/-- `KeyPair::from_bytes`. -/
def keyPairFromBytes (bytes : Bytes) : Option KeyPair :=
  if bytes.length ≠ privateKeyLen + publicKeyLen then none
  else
    let sk := bytes.take privateKeyLen
    let pk := bytes.drop privateKeyLen
    if !kem.validatePublicKey pk then none
    else if !kem.validatePrivateKeyOnly sk then none
    else if embeddedPublicKey sk ≠ pk then none
    else some ⟨bytes⟩

/-- `kem::encapsulate`; refused before a random byte is drawn when the public
key is not one. -/
def encapsulateTo (publicKey : Bytes) (rng : Rng) : Option (Bytes × K) × Rng :=
  if publicKey.length ≠ publicKeyLen ∨ kem.validatePublicKey publicKey = false then (none, rng)
  else
    let (randomness, rng) := fillBytes 32 rng
    (some (kem.encapsulate publicKey randomness), rng)

/-- `kem::decapsulate`. -/
def decapsulateFrom (pair : KeyPair) (ciphertext : Bytes) : Option K :=
  if ciphertext.length ≠ ciphertextLen then none
  else if pair.raw.length < privateKeyLen then none
  else some (kem.decapsulate (pair.raw.take privateKeyLen) ciphertext)

/-- Generated key pairs have the declared lengths and pass their own reader's
checks, ciphertexts have theirs, and decapsulation inverts encapsulation. -/
structure Honest : Prop where
  sk_length : ∀ seed, (kem.generateKeyPair seed).1.length = privateKeyLen
  pk_length : ∀ seed, (kem.generateKeyPair seed).2.length = publicKeyLen
  pk_valid : ∀ seed, kem.validatePublicKey (kem.generateKeyPair seed).2 = true
  sk_valid : ∀ seed, kem.validatePrivateKeyOnly (kem.generateKeyPair seed).1 = true
  pk_embedded : ∀ seed,
    embeddedPublicKey (kem.generateKeyPair seed).1 = (kem.generateKeyPair seed).2
  ciphertext_length : ∀ pk r, (kem.encapsulate pk r).1.length = ciphertextLen
  decapsulate_encapsulate : ∀ seed r,
    kem.decapsulate (kem.generateKeyPair seed).1
      (kem.encapsulate (kem.generateKeyPair seed).2 r).1 =
    (kem.encapsulate (kem.generateKeyPair seed).2 r).2

end MlKem

/-! ## The incremental ML-KEM-1024 of the Braid -/

/-- `libcrux_ml_kem::mlkem1024::incremental`. -/
structure IncKem (K : Type) where
  /-- `generate_key_pair(seed)`, the serialized pair. -/
  generateKeyPair : Arr 64 → Option Bytes
  pk1 : Bytes → Bytes
  pk2 : Bytes → Bytes
  decapsulateIncrementalKey : Bytes → Bytes → Bytes → Option K
  /-- `encapsulate1(header, randomness)`: state, first ciphertext, secret. -/
  encapsulate1 : Bytes → Arr 32 → Option (Bytes × Bytes × K)
  encapsulate2 : Bytes → Bytes → Bytes
  validatePkBytes : Bytes → Bytes → Bool

/-! ## XEdDSA -/

structure XEdDsa where
  /-- `sign(secret, message, Z)`, with the 64 random bytes it draws. -/
  signWith : Arr 32 → Bytes → Arr 64 → Arr 64
  verify : Arr 32 → Bytes → Arr 64 → Bool

namespace XEdDsa

variable (xed : XEdDsa)

/-- `xeddsa::sign`. -/
def sign (secret : Arr 32) (message : Bytes) (rng : Rng) : Arr 64 × Rng :=
  let (z, rng) := fillBytes 64 rng
  (xed.signWith secret message z, rng)

/-- A signature verifies under the public key of the secret that made it. -/
def Correct (dh : Dh K) : Prop :=
  ∀ secret message z, xed.verify (dh.publicKey secret) message (xed.signWith secret message z) = true

end XEdDsa

/-! ## Authenticated encryption -/

/-- `aead::encrypt` and `aead::decrypt`: an encryption key, a MAC key, a
sixteen-byte IV, the text, the associated data. -/
structure Aead (K : Type) where
  encrypt : K → K → Bytes → Bytes → Bytes → Bytes
  decrypt : K → K → Bytes → Bytes → Bytes → Option Bytes

namespace Aead

/-- Decryption inverts encryption. -/
def Inverts (aead : Aead K) : Prop :=
  ∀ enc mac iv plaintext ad,
    aead.decrypt enc mac iv (aead.encrypt enc mac iv plaintext ad) ad = some plaintext

/-- AES-256-CBC with PKCS#7, as RustCrypto provides it. -/
structure Cbc (K : Type) where
  encrypt : K → Bytes → Bytes → Bytes
  decrypt : K → Bytes → Bytes → Option Bytes

/-- The boundary crate's composition: encrypt, then MAC `associated_data ||
ciphertext` and append the 32-byte tag. -/
def ofCbc (kdf : Kdf K) (cbc : Cbc K) : Aead K where
  encrypt enc mac iv plaintext ad :=
    let out := cbc.encrypt enc iv plaintext
    out ++ kdf.bytes (kdf.hmac (kdf.bytes mac) (ad ++ out))
  decrypt enc mac iv ciphertextAndTag ad :=
    if ciphertextAndTag.length < 32 then none
    else
      let ciphertext := ciphertextAndTag.take (ciphertextAndTag.length - 32)
      let tag := ciphertextAndTag.drop (ciphertextAndTag.length - 32)
      if kdf.bytes (kdf.hmac (kdf.bytes mac) (ad ++ ciphertext)) ≠ tag then none
      else cbc.decrypt enc iv ciphertext

/-- The composition inverts itself whenever the cipher does and tags are 32
bytes long. -/
theorem ofCbc_inverts {kdf : Kdf K} {cbc : Cbc K} (sized : kdf.Sized)
    (inverts : ∀ enc iv plaintext, cbc.decrypt enc iv (cbc.encrypt enc iv plaintext) = some plaintext) :
    (ofCbc kdf cbc).Inverts := by
  intro enc mac iv plaintext ad
  simp only [ofCbc, List.length_append, sized _]
  rw [if_neg (by omega)]
  simp [inverts]

end Aead

/-! ## All of them -/

/-- Everything the core takes from outside itself, over the type of secrets. -/
structure Primitives (K : Type) where
  kdf : Kdf K
  dh : Dh K
  kem : MlKem K
  incKem : IncKem K
  xed : XEdDsa
  aead : Aead K

/-- `random_secret`: thirty-two fresh bytes. -/
def randomSecret (rng : Rng) : Arr 32 × Rng := fillBytes 32 rng

end Tacenta
