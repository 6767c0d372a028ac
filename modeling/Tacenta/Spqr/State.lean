/-
# Tacenta.Spqr.State -- the sparse post-quantum ratchet

`tacenta-spqr`: chains indexed by the agreement's epoch, two per epoch, opened
when the agreement yields that epoch's secret and retired when the window of
`epochsKept` epochs has moved past them.  The agreement is a boundary: its
output arrives as a value.
-/
import Tacenta.Kdf
import Tacenta.Lists

set_option autoImplicit false

namespace Tacenta.Spqr

variable {K : Type}

/-- The most keys that may be skipped on a single chain. -/
def maxSkip : UInt64 := 1000

/-- The most skipped keys the store may hold across every epoch in it. -/
def maxSkippedStore : Nat := 2000

/-- How many epochs of chains and skipped keys are kept. -/
def epochsKept : UInt64 := 2

def protocolInfo : Bytes := ascii "Tacenta SPQR"
def chainStartLabel : Bytes := ascii "Chain Start"
def rootLabel : Bytes := ascii "Root"
def chainLabel : Bytes := ascii "Chain"

/-- A secret the agreement produced, with the epoch it belongs to. -/
structure Output (K : Type) where
  keyEpoch : UInt64
  key : K
  deriving DecidableEq

inductive Direction where
  /-- Alice: sends on the first derived chain key. -/
  | a2b
  /-- Bob: sends on the second. -/
  | b2a
  deriving DecidableEq, Repr

inductive SpqrError where
  | epochOutOfOrder
  | noChain
  | chainRetired
  | tooManySkipped
  | skippedStoreFull
  | outOfOrder
  | chainExhausted
  deriving DecidableEq, Repr

/-- One KDF chain: its key, and how many message keys it has produced. -/
structure Chain (K : Type) where
  ck : K
  n : UInt64
  deriving DecidableEq

/-- The two chains of one epoch.  A chain is absent only in an imported state. -/
structure Chains (K : Type) where
  send : Option (Chain K)
  receive : Option (Chain K)
  deriving DecidableEq

/-- A message key held for a message that has not arrived. -/
structure Skipped (K : Type) where
  epoch : UInt64
  n : UInt64
  key : K
  deriving DecidableEq

structure State (K : Type) where
  rk : K
  epoch : UInt64
  chains : List (UInt64 × Chains K)
  skipped : List (Skipped K)
  direction : Direction
  deriving DecidableEq

/-! ## Derivations -/

def info (suffix : Bytes) : Bytes := protocolInfo ++ suffix

/-- `KDF_SCKA_INIT`: a root key and both chain keys. -/
def kdfInit (kdf : Kdf K) (sk : Bytes) : K × K × K :=
  let out := kdf.hkdf Kdf.zeroSalt sk (info chainStartLabel)
  (out 0, out 1, out 2)

/-- `KDF_SCKA_RK`: fold an agreement secret into the root key. -/
def kdfRk (kdf : Kdf K) (rk k : K) : K × K × K :=
  let out := kdf.hkdf (kdf.bytes rk) (kdf.bytes k) (info rootLabel)
  (out 0, out 1, out 2)

/-- `KDF_SCKA_CK`: the next chain key and the message key numbered `n`. -/
def kdfCk (kdf : Kdf K) (ck : K) (n : UInt64) : K × K :=
  let out := kdf.hkdf (kdf.bytes ck) (be64 n) (info chainLabel)
  (out 0, out 1)

/-- The sending and the receiving one of the two chain keys. -/
def Direction.assign (d : Direction) (k1 k2 : K) : K × K :=
  match d with
  | .a2b => (k1, k2)
  | .b2a => (k2, k1)

/-- Both chains of an epoch, freshly opened. -/
def freshChains (d : Direction) (k1 k2 : K) : Chains K :=
  let (cks, ckr) := d.assign k1 k2
  { send := some ⟨cks, 0⟩, receive := some ⟨ckr, 0⟩ }

namespace State

def init (kdf : Kdf K) (sk : Bytes) (direction : Direction) : State K :=
  let (rk, k1, k2) := kdfInit kdf sk
  { rk := rk, epoch := 0, chains := [(0, freshChains direction k1 k2)], skipped := [],
    direction := direction }

def initAlice (kdf : Kdf K) (sk : Bytes) : State K := init kdf sk .a2b
def initBob (kdf : Kdf K) (sk : Bytes) : State K := init kdf sk .b2a

def skippedLen (s : State K) : Nat := s.skipped.length

def findChains (s : State K) (e : UInt64) : Option (Chains K) :=
  (s.chains.find? fun c => c.1 = e).map Prod.snd

/-- How many message keys the receiving chain of `epoch` has produced. -/
def receiveCount (s : State K) (epoch : UInt64) : Option UInt64 :=
  match s.findChains epoch with
  | none => none
  | some cs =>
      match cs.receive with
      | none => none
      | some ch => some ch.n

/-- What `init` and every operation maintain, as the decoder checks it. -/
def invariant (s : State K) : Bool :=
  let chainsOk :=
    (s.chains.all fun c =>
      decide (c.1 ≤ s.epoch) && decide (s.epoch < c.1.saturatingAdd epochsKept)) &&
      decide (s.chains.Pairwise fun a b => a.1 ≠ b.1)
  let currentPresent := s.chains.any fun c => decide (c.1 = s.epoch)
  let skippedOk :=
    (s.skipped.all fun k => s.chains.any fun c => decide (c.1 = k.epoch)) &&
      decide (s.skipped.Pairwise fun a b => ¬ (a.epoch = b.epoch ∧ a.n = b.n))
  decide (s.skipped.length ≤ maxSkippedStore) && chainsOk && currentPresent && skippedOk

/-- Delete up to `count` of the oldest stored keys, from the front. -/
def evictOldest (s : State K) (count : Nat) : State K × Nat :=
  ({ s with skipped := s.skipped.drop count }, min count s.skipped.length)

def setChains (s : State K) (e : UInt64) (c : Chains K) : State K :=
  { s with chains := (s.chains.filter fun x => !decide (x.1 = e)) ++ [(e, c)] }

/-- Whether the window at `current` still covers epoch `e`. -/
def kept (current e : UInt64) : Bool := decide (current < e.saturatingAdd epochsKept)

/-- Retire everything older than the epochs kept, chains and skipped keys alike. -/
def clearOldEpochs (s : State K) (current : UInt64) : State K :=
  { s with
    chains := s.chains.filter fun c => kept current c.1
    skipped := s.skipped.filter fun k => kept current k.epoch }

/-- Fold a new secret into the root key and open a fresh pair of chains under
its epoch.  `u64::MAX` is refused rather than opened. -/
def advance (kdf : Kdf K) (s : State K) (out : Output K) : State K × Except SpqrError Unit :=
  match s.epoch.checkedAdd 1 with
  | none => (s, .error .chainExhausted)
  | some nextEpoch =>
      if nextEpoch = UInt64.maxValue then (s, .error .chainExhausted)
      else if out.keyEpoch ≠ nextEpoch then (s, .error .epochOutOfOrder)
      else
        let (rk, k1, k2) := kdfRk kdf s.rk out.key
        let opened := setChains { s with rk := rk, epoch := out.keyEpoch } out.keyEpoch
          (freshChains s.direction k1 k2)
        (opened.clearOldEpochs out.keyEpoch, .ok ())

def maybeAdvance (kdf : Kdf K) (s : State K) : Option (Output K) → State K × Except SpqrError Unit
  | some o => s.advance kdf o
  | none => (s, .ok ())

/-- The sending half of `send`, after the fold. -/
def sendOn (kdf : Kdf K) (s : State K) (sendingEpoch : UInt64) :
    State K × Except SpqrError (UInt64 × K) :=
  match s.findChains sendingEpoch with
  | none => (s, .error .noChain)
  | some cs =>
      match cs.send with
      | none => (s, .error .chainRetired)
      | some ch =>
          match ch.n.checkedAdd 1 with
          | none => (s, .error .chainExhausted)
          | some n =>
              let (next, key) := kdfCk kdf ch.ck n
              (s.setChains sendingEpoch { send := some ⟨next, n⟩, receive := cs.receive },
                .ok (n, key))

/-- Produce the next message key on the sending chain of the epoch named. -/
def send (kdf : Kdf K) (s : State K) (sendingEpoch : UInt64) (out : Option (Output K)) :
    State K × Except SpqrError (UInt64 × K) :=
  match s.maybeAdvance kdf out with
  | (s, .error e) => (s, .error e)
  | (s, .ok ()) => s.sendOn kdf sendingEpoch

/-- The entry `e`, `n` names. -/
def named (e n : UInt64) (k : Skipped K) : Bool := decide (k.epoch = e ∧ k.n = n)

/-- Take a stored key for this epoch and number, removing it. -/
def trySkipped (s : State K) (e n : UInt64) : Option (K × State K) :=
  (takeFirst (named e n) s.skipped).map fun found => (found.1.key, { s with skipped := found.2 })

/-- The storing loop of `skip_message_keys`: `left` steps from number `num`. -/
def deriveSkipped (kdf : Kdf K) (e : UInt64) (ck : K) (num : UInt64) : Nat → K × List (Skipped K)
  | 0 => (ck, [])
  | left + 1 =>
      let (next, key) := kdfCk kdf ck (num + 1)
      let (last, keys) := deriveSkipped kdf e next (num + 1) left
      (last, ⟨e, num + 1, key⟩ :: keys)

/-- Step the receiving chain forward to `upto`, storing every key passed.  Every
refusal leaves the state alone. -/
def skipMessageKeys (kdf : Kdf K) (s : State K) (e upto : UInt64) :
    State K × Except SpqrError Unit :=
  match s.findChains e with
  | none => (s, .error .noChain)
  | some cs =>
      match cs.receive with
      | none => (s, .error .chainRetired)
      | some ch =>
          if upto ≤ ch.n then (s, .ok ())
          else
            let count := upto - ch.n
            if count > maxSkip then (s, .error .tooManySkipped)
            else
              let skipped := s.skipped.filter fun k =>
                !(decide (k.epoch = e) && decide (ch.n < k.n) && decide (k.n ≤ upto))
              if skipped.length + count.toNat > maxSkippedStore then (s, .error .skippedStoreFull)
              else
                let (ck, keys) := deriveSkipped kdf e ch.ck ch.n count.toNat
                (setChains { s with skipped := skipped ++ keys } e
                  { send := cs.send, receive := some ⟨ck, upto⟩ }, .ok ())

/-- The last part of `receive`: the key numbered `n`, when it is the next one. -/
def receiveOn (kdf : Kdf K) (s : State K) (receivingEpoch n : UInt64) :
    State K × Except SpqrError K :=
  match s.findChains receivingEpoch with
  | none => (s, .error .noChain)
  | some cs =>
      match cs.receive with
      | none => (s, .error .chainRetired)
      | some ch =>
          match ch.n.checkedAdd 1 with
          | none => (s, .error .chainExhausted)
          | some expected =>
              if n ≠ expected then (s, .error .outOfOrder)
              else
                let (next, key) := kdfCk kdf ch.ck n
                (s.setChains receivingEpoch { send := cs.send, receive := some ⟨next, n⟩ }, .ok key)

/-- `receive` after the fold: a stored key if there is one, otherwise the chain. -/
def receiveFolded (kdf : Kdf K) (s : State K) (receivingEpoch n : UInt64) :
    State K × Except SpqrError K :=
  match s.trySkipped receivingEpoch n with
  | some (k, s) => (s, .ok k)
  | none =>
      match s.skipMessageKeys kdf receivingEpoch (n.saturatingSub 1) with
      | (s, .error e) => (s, .error e)
      | (s, .ok ()) => s.receiveOn kdf receivingEpoch n

/-- Produce the message key for a received message. -/
def receive (kdf : Kdf K) (s : State K) (receivingEpoch : UInt64) (out : Option (Output K))
    (n : UInt64) : State K × Except SpqrError K :=
  match s.maybeAdvance kdf out with
  | (s, .error e) => (s, .error e)
  | (s, .ok ()) => s.receiveFolded kdf receivingEpoch n

end State

end Tacenta.Spqr
