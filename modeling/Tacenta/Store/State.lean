/-
# Tacenta.Store.State -- a party's prekeys

`PrekeyStore` of the session crate: the private halves of everything a party
publishes, the counter their identifiers come from, and the record of the
last-resort handshakes already accepted.  The operations are the crate's; the
random source is threaded through those that draw.
-/
import Tacenta.Handshake
import Tacenta.Lists

set_option autoImplicit false

namespace Tacenta.Store

open Tacenta.Handshake (PreKeyBundle encodeEc encodeKem)
open Tacenta.Wire (absentId)

variable {K : Type}

/-- A long-term identity: one key for the agreements and the signatures. -/
structure Identity where
  secret : Arr 32
  deriving DecidableEq

namespace Identity

def «public» (p : Primitives K) (identity : Identity) : Arr 32 := p.dh.publicKey identity.secret

def sign (p : Primitives K) (identity : Identity) (message : Bytes) (rng : Rng) : Arr 64 × Rng :=
  p.xed.sign identity.secret message rng

end Identity

/-- How many spent last-resort handshakes are remembered per last-resort key. -/
def maxLastResortSeen : Nat := 1024

def lastResortHandshakeLabel : Bytes := ascii "tacenta last-resort handshake v2"

/-- The replay identity of a last-resort handshake: bound to its secret. -/
def lastResortFingerprint (kdf : Kdf K) (sk : K) : K :=
  kdf.hmac lastResortHandshakeLabel (kdf.bytes sk)

/-! ## Numbering -/

/-- The identifiers `create_prekeys` numbers a store with; ranges are half open. -/
structure PrekeyNumbering where
  signedPrekey : UInt32
  oneTime : UInt32 × UInt32
  kem : UInt32
  kemOneTime : UInt32 × UInt32
  nextId : UInt32
  deriving DecidableEq

/-- The most one-time prekeys of each kind `create_prekeys` makes. -/
def maxCreatedOneTime : UInt32 := (4294967295 - 3) / 2

namespace PrekeyNumbering

/-- The numbering for exactly `n` one-time prekeys of each kind. -/
def checked (n : UInt32) : Option PrekeyNumbering := do
  let kem ← n.checkedAdd 2
  let kemOneTimeStart ← kem.checkedAdd 1
  let nextId ← kemOneTimeStart.checkedAdd n
  pure { signedPrekey := 1, oneTime := (2, kem), kem := kem,
         kemOneTime := (kemOneTimeStart, nextId), nextId := nextId }

def forCount (oneTimeCount : Nat) : PrekeyNumbering :=
  let n := if oneTimeCount < 2 ^ 32 then
    min (UInt32.ofNat oneTimeCount) maxCreatedOneTime else maxCreatedOneTime
  match checked n with
  | some numbering => numbering
  | none =>
      { signedPrekey := 1, oneTime := (2, 2), kem := 2, kemOneTime := (3, 3), nextId := 3 }

end PrekeyNumbering

/-! ## The store -/

abbrev CurveEntry := UInt32 × Arr 32
abbrev KemEntry := UInt32 × KeyPair × Arr 64

structure PrekeyStore (K : Type) where
  identityPublic : Arr 32
  signedPrekeySecret : Arr 32
  signedPrekeyId : UInt32
  signedPrekeySig : Arr 64
  oneTime : List CurveEntry
  kem : KeyPair
  kemId : UInt32
  kemSig : Arr 64
  kemOneTime : List KemEntry
  previousSignedPrekey : Option (Arr 32 × UInt32 × Arr 64)
  previousKem : Option (KeyPair × UInt32 × Arr 64)
  nextId : UInt32
  lastResortSeen : List (UInt32 × K)
  legacyLastResortBlocked : List UInt32
  deriving DecidableEq

/-- The public keys and signatures, with the identifiers a recipient echoes. -/
structure PublishedBundle where
  bundle : PreKeyBundle
  signedPrekeyId : UInt32
  oneTimePrekeyId : UInt32
  kemPrekeyId : UInt32
  deriving DecidableEq

/-- One-time curve prekeys numbered from `id`. -/
def mintOneTime (id : UInt32) : Nat → Rng → List CurveEntry × Rng
  | 0, rng => ([], rng)
  | left + 1, rng =>
      let (secret, rng) := randomSecret rng
      let (rest, rng) := mintOneTime (id + 1) left rng
      ((id, secret) :: rest, rng)

/-- A fresh KEM key pair and its signature. -/
def mintKem (p : Primitives K) (identity : Identity) (rng : Rng) : (KeyPair × Arr 64) × Rng :=
  let (pair, rng) := p.kem.generate rng
  let (sig, rng) := identity.sign p (encodeKem (MlKem.publicKey pair)) rng
  ((pair, sig), rng)

/-- One-time KEM prekeys numbered from `id`, each signed. -/
def mintKemOneTime (p : Primitives K) (identity : Identity) (id : UInt32) :
    Nat → Rng → List KemEntry × Rng
  | 0, rng => ([], rng)
  | left + 1, rng =>
      let (entry, rng) := mintKem p identity rng
      let (rest, rng) := mintKemOneTime p identity (id + 1) left rng
      ((id, entry.1, entry.2) :: rest, rng)

/-- A fresh signed curve prekey. -/
def mintSignedPrekey (p : Primitives K) (identity : Identity) (rng : Rng) :
    (Arr 32 × Arr 64) × Rng :=
  let (secret, rng) := randomSecret rng
  let (sig, rng) := identity.sign p (encodeEc (p.dh.publicKey secret)) rng
  ((secret, sig), rng)

/-- `Identity::create_prekeys`. -/
def createPrekeys (p : Primitives K) (identity : Identity) (oneTimeCount : Nat) (rng : Rng) :
    PrekeyStore K × Rng :=
  let numbering := PrekeyNumbering.forCount oneTimeCount
  let (signed, rng) := mintSignedPrekey p identity rng
  let (oneTime, rng) := mintOneTime numbering.oneTime.1
    (numbering.oneTime.2.toNat - numbering.oneTime.1.toNat) rng
  let (kem, rng) := mintKem p identity rng
  let (kemOneTime, rng) := mintKemOneTime p identity numbering.kemOneTime.1
    (numbering.kemOneTime.2.toNat - numbering.kemOneTime.1.toNat) rng
  ({ identityPublic := identity.public p
     signedPrekeySecret := signed.1, signedPrekeyId := numbering.signedPrekey
     signedPrekeySig := signed.2
     oneTime := oneTime
     kem := kem.1, kemId := numbering.kem, kemSig := kem.2
     kemOneTime := kemOneTime
     previousSignedPrekey := none, previousKem := none
     nextId := numbering.nextId
     lastResortSeen := [], legacyLastResortBlocked := [] }, rng)

namespace PrekeyStore

/-! ## Publishing -/

def publish (p : Primitives K) (s : PrekeyStore K) : PublishedBundle :=
  let oneTime := match s.oneTime.getLast? with
    | none => (absentId, none)
    | some (id, secret) => (id, some (p.dh.publicKey secret))
  let kem := match s.kemOneTime.getLast? with
    | none => (s.kemId, MlKem.publicKey s.kem, s.kemSig)
    | some (id, pair, sig) => (id, MlKem.publicKey pair, sig)
  { bundle :=
      { identityKey := s.identityPublic
        signedPrekey := p.dh.publicKey s.signedPrekeySecret
        signedPrekeySignature := s.signedPrekeySig
        kemPrekey := kem.2.1
        kemPrekeySignature := kem.2.2
        oneTimePrekey := oneTime.2 }
    signedPrekeyId := s.signedPrekeyId
    oneTimePrekeyId := oneTime.1
    kemPrekeyId := kem.1 }

/-- One bundle per one-time pair, from the end of both pools. -/
def publishOneTimeBatch (p : Primitives K) (s : PrekeyStore K) : List PublishedBundle :=
  (s.oneTime.reverse.zip s.kemOneTime.reverse).map fun pair =>
    { bundle :=
        { identityKey := s.identityPublic
          signedPrekey := p.dh.publicKey s.signedPrekeySecret
          signedPrekeySignature := s.signedPrekeySig
          kemPrekey := MlKem.publicKey pair.2.2.1
          kemPrekeySignature := pair.2.2.2
          oneTimePrekey := some (p.dh.publicKey pair.1.2) }
      signedPrekeyId := s.signedPrekeyId
      oneTimePrekeyId := pair.1.1
      kemPrekeyId := pair.2.1 }

/-- The bundle to serve once the one-time pools are exhausted. -/
def publishMultiUse (p : Primitives K) (s : PrekeyStore K) : PublishedBundle :=
  { bundle :=
      { identityKey := s.identityPublic
        signedPrekey := p.dh.publicKey s.signedPrekeySecret
        signedPrekeySignature := s.signedPrekeySig
        kemPrekey := MlKem.publicKey s.kem
        kemPrekeySignature := s.kemSig
        oneTimePrekey := none }
    signedPrekeyId := s.signedPrekeyId
    oneTimePrekeyId := absentId
    kemPrekeyId := s.kemId }

/-! ## Refilling and rotating -/

/-- The curve loop of `replenish`; true when the identifiers ran out. -/
def replenishCurve : Nat → PrekeyStore K → Rng → PrekeyStore K × Bool × Rng
  | 0, s, rng => (s, false, rng)
  | left + 1, s, rng =>
      match s.nextId.checkedAdd 1 with
      | none => (s, true, rng)
      | some next =>
          let (secret, rng) := randomSecret rng
          replenishCurve left
            { s with nextId := next, oneTime := s.oneTime ++ [(s.nextId, secret)] } rng

/-- The KEM loop of `replenish`. -/
def replenishKem (p : Primitives K) (identity : Identity) :
    Nat → PrekeyStore K → Rng → PrekeyStore K × Rng
  | 0, s, rng => (s, rng)
  | left + 1, s, rng =>
      match s.nextId.checkedAdd 1 with
      | none => (s, rng)
      | some next =>
          let (entry, rng) := mintKem p identity rng
          replenishKem p identity left
            { s with nextId := next
                     kemOneTime := s.kemOneTime ++ [(s.nextId, entry.1, entry.2)] } rng

/-- Add fresh one-time prekeys of each kind, under this store's identity only. -/
def replenish (p : Primitives K) (s : PrekeyStore K) (identity : Identity) (count : Nat)
    (rng : Rng) : PrekeyStore K × Rng :=
  if identity.public p ≠ s.identityPublic then (s, rng)
  else
    let (s, exhausted, rng) := replenishCurve count s rng
    if exhausted then (s, rng) else replenishKem p identity count s rng

/-- Replace the signed prekey, keeping the one it replaces for one rotation. -/
def rotateSignedPrekey (p : Primitives K) (s : PrekeyStore K) (identity : Identity) (rng : Rng) :
    PrekeyStore K × Rng :=
  match s.nextId.checkedAdd 1 with
  | none => (s, rng)
  | some next =>
      if identity.public p ≠ s.identityPublic then (s, rng)
      else
        let (signed, rng) := mintSignedPrekey p identity rng
        ({ s with
            nextId := next
            previousSignedPrekey :=
              some (s.signedPrekeySecret, s.signedPrekeyId, s.signedPrekeySig)
            signedPrekeySecret := signed.1
            signedPrekeyId := s.nextId
            signedPrekeySig := signed.2 }, rng)

/-- What the record keeps when a rotation wipes the key it retired before. -/
def pruned (s : PrekeyStore K) : List (UInt32 × K) × List UInt32 :=
  match s.previousKem with
  | some (_, wipedId, _) =>
      (s.lastResortSeen.filter fun entry => entry.1 ≠ wipedId,
        s.legacyLastResortBlocked.filter fun id => id ≠ wipedId)
  | none => (s.lastResortSeen, s.legacyLastResortBlocked)

/-- Replace the last-resort KEM prekey, and prune the record of the wiped one. -/
def rotateKem (p : Primitives K) (s : PrekeyStore K) (identity : Identity) (rng : Rng) :
    PrekeyStore K × Rng :=
  match s.nextId.checkedAdd 1 with
  | none => (s, rng)
  | some next =>
      if identity.public p ≠ s.identityPublic then (s, rng)
      else
        let (entry, rng) := mintKem p identity rng
        ({ s with
            nextId := next
            previousKem := some (s.kem, s.kemId, s.kemSig)
            lastResortSeen := s.pruned.1
            legacyLastResortBlocked := s.pruned.2
            kem := entry.1
            kemId := s.nextId
            kemSig := entry.2 }, rng)

/-! ## Looking up and consuming -/

def oneTimeRemaining (s : PrekeyStore K) : Nat × Nat := (s.oneTime.length, s.kemOneTime.length)

/-- How many record entries are tagged with one last-resort key. -/
def lastResortSeenFor (s : PrekeyStore K) (keyId : UInt32) : Nat :=
  s.lastResortSeen.countP fun entry => entry.1 = keyId

/-- Read the one-time prekey with this identifier without deleting it. -/
def peekOneTime (s : PrekeyStore K) (id : UInt32) : Option (Arr 32) :=
  (s.oneTime.find? fun entry => entry.1 = id).map Prod.snd

/-- Delete the first one-time prekey with this identifier. -/
def takeOneTime (s : PrekeyStore K) (id : UInt32) : PrekeyStore K :=
  { s with oneTime := swapRemove (fun entry => entry.1 = id) s.oneTime }

/-- Delete the first one-time KEM prekey with this identifier. -/
def takeOneTimeKem (s : PrekeyStore K) (id : UInt32) : PrekeyStore K :=
  { s with kemOneTime := swapRemove (fun entry => entry.1 = id) s.kemOneTime }

/-! ## The invariant -/

/-- Every identifier the store names a key with. -/
def ids (s : PrekeyStore K) : List UInt32 :=
  [s.signedPrekeyId, s.kemId] ++ (s.previousSignedPrekey.map fun r => r.2.1).toList ++
    (s.previousKem.map fun r => r.2.1).toList ++ s.oneTime.map Prod.fst ++ s.kemOneTime.map Prod.fst

def previousKemId (s : PrekeyStore K) : Option UInt32 := s.previousKem.map fun r => r.2.1

/-- The two last-resort keys that can still decrypt. -/
def isLastResort (s : PrekeyStore K) (id : UInt32) : Bool :=
  decide (id = s.kemId) || decide (some id = s.previousKemId)

/-- Whether this store is one `create_prekeys` builds and every operation preserves. -/
def invariant [DecidableEq K] (p : Primitives K) (s : PrekeyStore K) : Bool :=
  let idsValid :=
    (s.ids.all fun id => decide (id ≠ absentId) && decide (id < s.nextId)) &&
      decide (s.ids.Pairwise (· ≠ ·))
  let recordValid :=
    (s.lastResortSeen.all fun entry => s.isLastResort entry.1) &&
      decide (s.lastResortSeen.Pairwise fun a b => a.2 ≠ b.2)
  let currentSeen := s.lastResortSeen.countP fun entry => entry.1 = s.kemId
  let previousSeen := s.lastResortSeen.countP fun entry =>
    decide (entry.1 ≠ s.kemId) && decide (some entry.1 = s.previousKemId)
  let blockedValid :=
    (s.legacyLastResortBlocked.all fun id => s.isLastResort id) &&
      decide (s.legacyLastResortBlocked.Pairwise (· ≠ ·))
  p.dh.isValidIdentityKey s.identityPublic && idsValid && recordValid &&
    decide (currentSeen ≤ maxLastResortSeen) && decide (previousSeen ≤ maxLastResortSeen) &&
    blockedValid

def signedPrekeySignatureOk (p : Primitives K) (identityPublic secret : Arr 32) (sig : Arr 64) :
    Bool :=
  p.xed.verify identityPublic (encodeEc (p.dh.publicKey secret)) sig

def kemPrekeySignatureOk (p : Primitives K) (identityPublic : Arr 32) (pair : KeyPair)
    (sig : Arr 64) : Bool :=
  p.xed.verify identityPublic (encodeKem (MlKem.publicKey pair)) sig

/-- Whether every stored signature verifies under `identity_public`. -/
def signaturesVerify (p : Primitives K) (s : PrekeyStore K) : Bool :=
  signedPrekeySignatureOk p s.identityPublic s.signedPrekeySecret s.signedPrekeySig &&
    kemPrekeySignatureOk p s.identityPublic s.kem s.kemSig &&
    (s.kemOneTime.all fun entry => kemPrekeySignatureOk p s.identityPublic entry.2.1 entry.2.2) &&
    (match s.previousSignedPrekey with
      | none => true
      | some (secret, _, sig) => signedPrekeySignatureOk p s.identityPublic secret sig) &&
    (match s.previousKem with
      | none => true
      | some (pair, _, sig) => kemPrekeySignatureOk p s.identityPublic pair sig)

end PrekeyStore

end Tacenta.Store
