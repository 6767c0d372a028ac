/-
# Tacenta.Kem -- the incremental KEM the Braid drives

`tacenta-kem` wraps the incremental ML-KEM-1024 of the boundary: it fixes the
lengths, refuses inputs that do not have them, and refuses an encapsulation
state whose coefficients are out of range.  The key pair and the encapsulation
state are their own bytes.
-/
import Tacenta.Boundary

set_option autoImplicit false

namespace Tacenta

variable {K : Type}

namespace Kem

def headerLen : Nat := 64
def ekVectorLen : Nat := 1536
def ct1Len : Nat := 1408
def ct2Len : Nat := 160
def keyPairLen : Nat := 11872
def encapsStateCoefficientBytes : Nat := 5 * 256 * 2
def encapsStateLen : Nat := encapsStateCoefficientBytes + 32

/-- A value below which an encapsulation state's coefficients must lie, either
side of zero. -/
def coefficientBound : Int := 3328

structure IncrementalKeyPair where
  raw : Bytes
  deriving DecidableEq

structure EncapsState where
  raw : Bytes
  deriving DecidableEq

/-- `i16::from_le_bytes`. -/
def i16OfLe (lo hi : UInt8) : Int :=
  let v : Int := hi.toNat * 256 + lo.toNat
  if v < 2 ^ 15 then v else v - 2 ^ 16

/-- Whether every two-byte coefficient lies within the bound. -/
def coefficientsBounded (bound : Int) : Bytes → Bool
  | lo :: hi :: rest =>
      decide (-bound ≤ i16OfLe lo hi ∧ i16OfLe lo hi ≤ bound) && coefficientsBounded bound rest
  | _ => true

namespace IncrementalKeyPair

def generate (ikem : IncKem K) (rng : Rng) : Option IncrementalKeyPair × Rng :=
  let (seed, rng) := fillBytes 64 rng
  ((ikem.generateKeyPair seed).map IncrementalKeyPair.mk, rng)

def header (ikem : IncKem K) (kp : IncrementalKeyPair) : Bytes := ikem.pk1 kp.raw
def ekVector (ikem : IncKem K) (kp : IncrementalKeyPair) : Bytes := ikem.pk2 kp.raw

def decapsulate (ikem : IncKem K) (kp : IncrementalKeyPair) (ct1 ct2 : Bytes) : Option K :=
  if ct1.length ≠ ct1Len then none
  else if ct2.length ≠ ct2Len then none
  else ikem.decapsulateIncrementalKey kp.raw ct1 ct2

def fromBytes (bytes : Bytes) : Option IncrementalKeyPair :=
  if bytes.length ≠ keyPairLen then none else some ⟨bytes⟩

end IncrementalKeyPair

def EncapsState.fromBytes (bytes : Bytes) : Option EncapsState :=
  if bytes.length ≠ encapsStateLen then none else some ⟨bytes⟩

/-- `encapsulate1`: state, first ciphertext and shared secret. -/
def encapsulate1 (ikem : IncKem K) (header : Bytes) (rng : Rng) :
    Option (EncapsState × Bytes × K) × Rng :=
  if header.length ≠ headerLen then (none, rng)
  else
    let (randomness, rng) := fillBytes 32 rng
    ((ikem.encapsulate1 header randomness).map fun r => (⟨r.1⟩, r.2.1, r.2.2), rng)

def encapsulate2 (ikem : IncKem K) (state : EncapsState) (ekVector : Bytes) : Option Bytes :=
  if state.raw.length ≠ encapsStateLen then none
  else if !coefficientsBounded coefficientBound (state.raw.take encapsStateCoefficientBytes) then
    none
  else if ekVector.length ≠ ekVectorLen then none
  else some (ikem.encapsulate2 state.raw ekVector)

def validateEk (ikem : IncKem K) (header ekVector : Bytes) : Bool :=
  ikem.validatePkBytes header ekVector

end Kem

/-- Generated pairs and encapsulations have the declared lengths, and a
generated pair passes its own key check. -/
structure IncKem.WellFormed (ikem : IncKem K) : Prop where
  keyPair_length : ∀ seed kp, ikem.generateKeyPair seed = some kp → kp.length = Kem.keyPairLen
  header_length : ∀ kp, (ikem.pk1 kp).length = Kem.headerLen
  ekVector_length : ∀ kp, (ikem.pk2 kp).length = Kem.ekVectorLen
  keyPair_valid : ∀ seed kp, ikem.generateKeyPair seed = some kp →
    ikem.validatePkBytes (ikem.pk1 kp) (ikem.pk2 kp) = true
  state_length : ∀ header r st ct1 ss, ikem.encapsulate1 header r = some (st, ct1, ss) →
    st.length = Kem.encapsStateLen
  ct1_length : ∀ header r st ct1 ss, ikem.encapsulate1 header r = some (st, ct1, ss) →
    ct1.length = Kem.ct1Len
  ct2_length : ∀ st ek, (ikem.encapsulate2 st ek).length = Kem.ct2Len

/-- The KEM never fails on honest inputs, and decapsulation recovers the secret
both halves of an encapsulation to the same key pair belong to. -/
structure IncKem.Honest (ikem : IncKem K) : Prop extends ikem.WellFormed where
  generates : ∀ seed, ∃ kp, ikem.generateKeyPair seed = some kp
  encapsulates : ∀ seed kp r, ikem.generateKeyPair seed = some kp →
    ∃ st ct1 ss, ikem.encapsulate1 (ikem.pk1 kp) r = some (st, ct1, ss)
  coefficients_bounded : ∀ seed kp r st ct1 ss, ikem.generateKeyPair seed = some kp →
    ikem.encapsulate1 (ikem.pk1 kp) r = some (st, ct1, ss) →
    Kem.coefficientsBounded Kem.coefficientBound (st.take Kem.encapsStateCoefficientBytes) = true
  decapsulates : ∀ seed kp r st ct1 ss, ikem.generateKeyPair seed = some kp →
    ikem.encapsulate1 (ikem.pk1 kp) r = some (st, ct1, ss) →
    ikem.decapsulateIncrementalKey kp ct1 (ikem.encapsulate2 st (ikem.pk2 kp)) = some ss

end Tacenta
