/-
# Tacenta.Ratchet.State -- the Double Ratchet state machine

The classical ratchet of `tacenta-ratchet`, function by function.  Diffie-Hellman
outputs come in as secrets; the agreement itself is the session's.

A function that takes `&mut State` returns the state beside its result, also
when the result is an error: `receive` may have moved the state before it
refuses, and whoever runs it decides whether to keep what it moved.
-/
import Tacenta.Boundary
import Tacenta.Lists

set_option autoImplicit false

namespace Tacenta.Ratchet

variable {K : Type}

/-- The one label set there is. -/
inductive LabelSet where
  | tacenta
  deriving DecidableEq, Repr

def rkInfo : Bytes := ascii "Tacenta RK"
def mkInfo : Bytes := ascii "Tacenta MK"

/-- The most keys that may be skipped on one chain. -/
def maxSkip : UInt32 := 1000

/-- The most keys the skipped store may hold. -/
def maxSkippedStore : Nat := 2000

/-- How many received messages a skipped key may outlive. -/
def maxSkippedAge : UInt32 := 1000

/-- Where the receive clock stops, one below `u32::MAX`. -/
def maxEvents : UInt32 := 4294967294

/-- Ratchet public key, previous chain length, message number. -/
structure Header where
  dh : Arr 32
  pn : UInt32
  n : UInt32
  deriving DecidableEq

/-- A message key held for a message that has not arrived. -/
structure SkippedKey (K : Type) where
  dh : Arr 32
  n : UInt32
  storedAt : UInt32
  key : K
  deriving DecidableEq

structure State (K : Type) where
  dhsPub : Arr 32
  dhrPub : Option (Arr 32)
  rk : K
  cks : Option K
  ckr : Option K
  ns : UInt32
  nr : UInt32
  pn : UInt32
  skipped : List (SkippedKey K)
  events : UInt32
  labels : LabelSet
  deriving DecidableEq

inductive RatchetError where
  | tooManySkipped
  | skippedStoreFull
  | noSendingChain
  | noReceivingChain
  | outOfOrder
  | chainExhausted
  deriving DecidableEq, Repr

/-! ## Derivations -/

/-- `kdf_ck`: next chain key and message key. -/
def kdfCk (kdf : Kdf K) (ck : K) : K × K :=
  let mk := kdf.hmac (kdf.bytes ck) [0x01]
  let next := kdf.hmac (kdf.bytes ck) [0x02]
  (next, mk)

/-- `kdf_rk`: new root key and new chain key. -/
def kdfRk (kdf : Kdf K) (rk dhOut : K) (labels : LabelSet) : K × K :=
  let info := match labels with
    | .tacenta => rkInfo
  let out := kdf.hkdf (kdf.bytes rk) (kdf.bytes dhOut) info
  (out 0, out 1)

/-- `message_keys`: encryption key, MAC key and IV. -/
def messageKeys (kdf : Kdf K) (mk : K) (labels : LabelSet) : K × K × Bytes :=
  let info := match labels with
    | .tacenta => mkInfo
  let out := kdf.hkdf Kdf.zeroSalt (kdf.bytes mk) info
  (out 0, out 1, (kdf.bytes (out 2)).take 16)

/-- The loop of `derive_chain`, from its `i`-th turn. -/
def deriveFrom (kdf : Kdf K) (startN : UInt32) (ck : K) (i : Nat) :
    Nat → Except RatchetError (K × List (UInt32 × K))
  | 0 => .ok (ck, [])
  | left + 1 =>
      match startN.checkedAdd (UInt32.ofNat i) with
      | none => .error .chainExhausted
      | some n =>
          let (next, mk) := kdfCk kdf ck
          match deriveFrom kdf startN next (i + 1) left with
          | .error e => .error e
          | .ok (last, keys) => .ok (last, (n, mk) :: keys)

/-- Advance a chain `count` steps from `startN`. -/
def deriveChain (kdf : Kdf K) (ck : K) (startN : UInt32) (count : UInt32) :
    Except RatchetError (K × List (UInt32 × K)) :=
  deriveFrom kdf startN ck 0 count.toNat

/-! ## The skipped store -/

/-- The entry `dh`, `n` names. -/
def SkippedKey.named (dh : Arr 32) (n : UInt32) (k : SkippedKey K) : Bool :=
  decide (k.dh = dh ∧ k.n = n)

/-- Drop what is stored under `dhr` for the numbers `[from, upto)`. -/
def purgeChainRange (skipped : List (SkippedKey K)) (dhr : Arr 32) (start upto : UInt32) :
    List (SkippedKey K) :=
  skipped.filter fun k => !(decide (k.dh = dhr) && decide (k.n ≥ start) && decide (k.n < upto))

/-- `try_skipped`: the stored key for the header, taken out. -/
def trySkipped (skipped : List (SkippedKey K)) (header : Header) :
    Option (K × List (SkippedKey K)) :=
  (takeFirst (SkippedKey.named header.dh header.n) skipped).map fun found => (found.1.key, found.2)

/-- The scan of `evict_oldest`: the first position holding the least reading. -/
def oldestFrom (oldest : Nat) (reading : UInt32) : Nat → List (SkippedKey K) → Nat
  | _, [] => oldest
  | i, k :: rest =>
      if k.storedAt < reading then oldestFrom i k.storedAt (i + 1) rest
      else oldestFrom oldest reading (i + 1) rest

/-- Delete up to `count` of the oldest entries, and say how many were deleted. -/
def evictOldest : Nat → List (SkippedKey K) → List (SkippedKey K) × Nat
  | 0, l => (l, 0)
  | _ + 1, [] => ([], 0)
  | count + 1, k :: rest =>
      let (left, evicted) :=
        evictOldest count ((k :: rest).eraseIdx (oldestFrom 0 k.storedAt 1 rest))
      (left, evicted + 1)

namespace State

/-- `State::evict_oldest`. -/
def evictOldest (s : State K) (count : Nat) : State K × Nat :=
  let (skipped, evicted) := Ratchet.evictOldest count s.skipped
  ({ s with skipped := skipped }, evicted)

def sendingPublic (s : State K) : Arr 32 := s.dhsPub
def sendCount (s : State K) : UInt32 := s.ns
def receiveCount (s : State K) : UInt32 := s.nr
def skippedLen (s : State K) : Nat := s.skipped.length

/-- The role the state was initialised in, while its chains still show it. -/
def startedAsSender (s : State K) : Option Bool :=
  match s.cks, s.ckr with
  | some _, none => some true
  | none, none => some false
  | _, _ => none

/-- What the constructors and every operation maintain, as the decoder checks it. -/
def invariant (s : State K) : Bool :=
  let storeOk :=
    (s.skipped.all fun k => decide (k.storedAt ≤ s.events) && Curve.isCanonicalX25519 k.dh) &&
      decide (s.skipped.Pairwise fun a b => ¬ (a.dh = b.dh ∧ a.n = b.n))
  let chainsOk :=
    match s.ckr with
    | none => true
    | some _ => s.cks.isSome && s.dhrPub.isSome
  let keysOk :=
    Curve.isCanonicalX25519 s.dhsPub &&
      match s.dhrPub with
      | none => true
      | some k => Curve.isCanonicalX25519 k
  decide (s.skipped.length ≤ maxSkippedStore) && decide (s.events.toNat < 2 ^ 32 - 1) &&
    storeOk && chainsOk && keysOk

end State

/-! ## Operations -/

/-- Store the keys of the current receiving chain up to, not including, `upto`.
Every refusal leaves the state alone. -/
def skipMessageKeys (kdf : Kdf K) (s : State K) (upto : UInt32) :
    State K × Except RatchetError Unit :=
  match s.ckr, s.dhrPub with
  | some ck, some dhr =>
      if upto ≤ s.nr then (s, .ok ())
      else if upto > s.nr.saturatingAdd maxSkip then (s, .error .tooManySkipped)
      else
        let count := (upto - s.nr).toNat
        let skipped := purgeChainRange s.skipped dhr s.nr upto
        if skipped.length + count > maxSkippedStore then (s, .error .skippedStoreFull)
        else
          match deriveChain kdf ck s.nr (upto - s.nr) with
          | .error e => (s, .error e)
          | .ok (ck2, keys) =>
              let stored := keys.map fun k =>
                { dh := dhr, n := k.1, storedAt := s.events, key := k.2 : SkippedKey K }
              ({ s with ckr := some ck2, nr := upto, skipped := skipped ++ stored }, .ok ())
  | _, _ => (s, .ok ())

/-- The party that sends first. -/
def initSender (kdf : Kdf K) (sk : K) (ourPub peerPub : Arr 32) (dhOut : K) (labels : LabelSet) :
    State K :=
  let (rk, cks) := kdfRk kdf sk dhOut labels
  { dhsPub := ourPub, dhrPub := some peerPub, rk := rk, cks := some cks, ckr := none, ns := 0,
    nr := 0, pn := 0, skipped := [], events := 0, labels := labels }

/-- The party that receives first. -/
def initReceiver (sk : K) (ourPub : Arr 32) (labels : LabelSet) : State K :=
  { dhsPub := ourPub, dhrPub := none, rk := sk, cks := none, ckr := none, ns := 0, nr := 0,
    pn := 0, skipped := [], events := 0, labels := labels }

/-- Advance the sending chain. -/
def send (kdf : Kdf K) (s : State K) : State K × Except RatchetError (Header × K) :=
  match s.cks with
  | none => (s, .error .noSendingChain)
  | some ck =>
      match s.ns.checkedAdd 1 with
      | none => (s, .error .chainExhausted)
      | some nextNs =>
          let (ck2, mk) := kdfCk kdf ck
          ({ s with cks := some ck2, ns := nextNs },
            .ok ({ dh := s.dhsPub, pn := s.pn, n := s.ns }, mk))

/-- A Diffie-Hellman step onto the header's key. -/
def dhRatchet (kdf : Kdf K) (s : State K) (header : Header) (dhOutRecv dhOutSend : K)
    (newDhsPub : Arr 32) : State K :=
  let (rk1, ckr) := kdfRk kdf s.rk dhOutRecv s.labels
  let (rk2, cks) := kdfRk kdf rk1 dhOutSend s.labels
  { s with pn := s.ns, ns := 0, nr := 0, dhrPub := some header.dh, rk := rk2, ckr := some ckr,
           cks := some cks, dhsPub := newDhsPub }

/-- Count one received message and delete the keys that outlived their age. -/
def ageStore (s : State K) : State K :=
  let stepped := s.events.saturatingAdd 1
  let now := if stepped = UInt32.ofNat (2 ^ 32 - 1) then maxEvents else stepped
  { s with
    events := now
    skipped := s.skipped.filter fun k => !decide (now.saturatingSub k.storedAt ≥ maxSkippedAge) }

/-- The first half of `receive`, past the store: step onto the header's chain
when its key is not the current one. -/
def enterChain (kdf : Kdf K) (s : State K) (header : Header) (dhOutRecv dhOutSend : K)
    (newDhsPub : Arr 32) : State K × Except RatchetError Unit :=
  let needsRatchet := match s.dhrPub with
    | none => true
    | some dhr => decide (dhr ≠ header.dh)
  if needsRatchet then
    match skipMessageKeys kdf s header.pn with
    | (s, .error e) => (s, .error e)
    | (s, .ok ()) => (dhRatchet kdf s header dhOutRecv dhOutSend newDhsPub, .ok ())
  else (s, .ok ())

/-- The second half: skip up to the header's number and derive its key. -/
def advanceChain (kdf : Kdf K) (s : State K) (header : Header) :
    State K × Except RatchetError K :=
  match skipMessageKeys kdf s header.n with
  | (s, .error e) => (s, .error e)
  | (s, .ok ()) =>
      if header.n < s.nr then (s, .error .outOfOrder)
      else
        match s.ckr with
        | none => (s, .error .noReceivingChain)
        | some ck =>
            match s.nr.checkedAdd 1 with
            | none => (s, .error .chainExhausted)
            | some nextNr =>
                let (ck2, mk) := kdfCk kdf ck
                (ageStore { s with ckr := some ck2, nr := nextNr }, .ok mk)

/-- `receive`: a stored key if there is one, otherwise the chain. -/
def receive (kdf : Kdf K) (s : State K) (header : Header) (dhOutRecv dhOutSend : K)
    (newDhsPub : Arr 32) : State K × Except RatchetError K :=
  match trySkipped s.skipped header with
  | some (mk, skipped) => (ageStore { s with skipped := skipped }, .ok mk)
  | none =>
      match enterChain kdf s header dhOutRecv dhOutSend newDhsPub with
      | (s, .error e) => (s, .error e)
      | (s, .ok ()) => advanceChain kdf s header

end Tacenta.Ratchet
