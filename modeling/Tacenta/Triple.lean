/-
# Tacenta.Triple -- the composition of the two ratchets

`tacenta-triple` runs the classical and the sparse ratchet side by side and
combines one message key of each.  Both operations work on a copy: `send` adopts
it only when both halves succeed, and `receive` hands it back for the caller to
adopt once the message has authenticated.
-/
import Tacenta.Ratchet.State
import Tacenta.Spqr.State

set_option autoImplicit false

namespace Tacenta.Triple

variable {K : Type}

def combineInfo : Bytes := ascii "Tacenta_CURVE25519_SHA-256_MLKEM1024"
def splitInfo : Bytes := ascii "Tacenta_CURVE25519_SHA-256_MLKEM1024:Split"

/-- The composite header: each ratchet's own, side by side. -/
structure Header where
  dr : Ratchet.Header
  epoch : UInt64
  pqN : UInt64
  deriving DecidableEq

inductive TripleError where
  | classical (e : Ratchet.RatchetError)
  | postQuantum (e : Spqr.SpqrError)
  deriving DecidableEq, Repr

/-- Expand the handshake's secret into one for each ratchet. -/
def splitSecret (kdf : Kdf K) (sk : Bytes) : K × K :=
  let out := kdf.hkdf Kdf.zeroSalt sk splitInfo
  (out 0, out 1)

/-- The message key, from the two halves' keys. -/
def combine (kdf : Kdf K) (mkClassical mkPq : K) : K :=
  kdf.hkdf (kdf.bytes mkPq) (kdf.bytes mkClassical) combineInfo 0

structure State (K : Type) where
  classical : Ratchet.State K
  postQuantum : Spqr.State K
  deriving DecidableEq

namespace State

/-- The party that speaks first. -/
def initSender (kdf : Kdf K) (sk : Bytes) (ourPub peerPub : Arr 32) (dhOut : K)
    (labels : Ratchet.LabelSet) : State K :=
  let (ec, pq) := splitSecret kdf sk
  { classical := Ratchet.initSender kdf ec ourPub peerPub dhOut labels
    postQuantum := Spqr.State.initAlice kdf (kdf.bytes pq) }

/-- The party that waits. -/
def initReceiver (kdf : Kdf K) (sk : Bytes) (ourPub : Arr 32) (labels : Ratchet.LabelSet) :
    State K :=
  let (ec, pq) := splitSecret kdf sk
  { classical := Ratchet.initReceiver ec ourPub labels
    postQuantum := Spqr.State.initBob kdf (kdf.bytes pq) }

def sendingPublic (s : State K) : Arr 32 := s.classical.sendingPublic
def sendCount (s : State K) : UInt32 := s.classical.sendCount
def receiveCount (s : State K) : UInt32 := s.classical.receiveCount
def classicalSkippedLen (s : State K) : Nat := s.classical.skippedLen
def postQuantumSkippedLen (s : State K) : Nat := s.postQuantum.skippedLen

def postQuantumReceiveCount (s : State K) (epoch : UInt64) : Option UInt64 :=
  s.postQuantum.receiveCount epoch

def evictOldestClassical (s : State K) (count : Nat) : State K × Nat :=
  let (classical, evicted) := s.classical.evictOldest count
  ({ s with classical := classical }, evicted)

def evictOldestPostQuantum (s : State K) (count : Nat) : State K × Nat :=
  let (postQuantum, evicted) := s.postQuantum.evictOldest count
  ({ s with postQuantum := postQuantum }, evicted)

def epoch (s : State K) : UInt64 := s.postQuantum.epoch
def direction (s : State K) : Spqr.Direction := s.postQuantum.direction
def startedAsSender (s : State K) : Option Bool := s.classical.startedAsSender

/-- Both halves' own invariants, and that they agree on the role. -/
def invariant (s : State K) : Bool :=
  let sendsFirst := match s.postQuantum.direction with
    | .a2b => true
    | .b2a => false
  let rolesAgree := match s.classical.startedAsSender with
    | none => true
    | some sender => if sender then sendsFirst else !sendsFirst
  s.classical.invariant && s.postQuantum.invariant && rolesAgree

/-- Produce a header and the message key.  A failed send changes nothing. -/
def send (kdf : Kdf K) (s : State K) (sendingEpoch : UInt64) (output : Option (Spqr.Output K)) :
    State K × Except TripleError (Header × K) :=
  match Ratchet.send kdf s.classical with
  | (_, .error e) => (s, .error (.classical e))
  | (classical, .ok (dr, mkEc)) =>
      match s.postQuantum.send kdf sendingEpoch output with
      | (_, .error e) => (s, .error (.postQuantum e))
      | (postQuantum, .ok (pqN, mkPq)) =>
          ({ classical := classical, postQuantum := postQuantum },
            .ok ({ dr := dr, epoch := sendingEpoch, pqN := pqN }, combine kdf mkEc mkPq))

/-- The key that decrypts a message and the state it would produce. -/
def receive (kdf : Kdf K) (s : State K) (header : Header) (dhOutRecv dhOutSend : K)
    (newDhsPub : Arr 32) (output : Option (Spqr.Output K)) : Except TripleError (State K × K) :=
  match Ratchet.receive kdf s.classical header.dr dhOutRecv dhOutSend newDhsPub with
  | (_, .error e) => .error (.classical e)
  | (classical, .ok mkEc) =>
      match s.postQuantum.receive kdf header.epoch output header.pqN with
      | (_, .error e) => .error (.postQuantum e)
      | (postQuantum, .ok mkPq) =>
          .ok ({ classical := classical, postQuantum := postQuantum }, combine kdf mkEc mkPq)

end State

end Tacenta.Triple
