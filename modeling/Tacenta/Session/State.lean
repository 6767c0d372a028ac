/-
# Tacenta.Session.State -- one established session

`Session` of the session crate: the Triple Ratchet, the Braid that feeds it, the
private half of the ratchet key, and what binds them to two identities.
`encrypt`, `decrypt` and `decryptRatchet` are the crate's, refusal by refusal;
each returns the session as the call leaves it, also when it refuses.
-/
import Tacenta.Braid.State
import Tacenta.Store.State
import Tacenta.Triple

set_option autoImplicit false

namespace Tacenta.Session

open Tacenta.Handshake (SessionError encodeEc decodeEc identityAd)
open Tacenta.Wire (Composite Codeword AgreementType DecodeError concatAd decodeMessage decodeInitial
  encodeMessage encodeInitial messageType)
open Tacenta.Triple (TripleError)
open Tacenta.Braid (Braid)

variable {K : Type}

/-- What can go wrong establishing or advancing a session. -/
inductive Error where
  | triple (e : TripleError)
  | handshake (e : SessionError)
  | kem
  | decode (e : DecodeError)
  | badEncoding
  | inconsistentBundle
  | unexpectedIdentity
  | unknownPrekeyId
  | aead
  | notARepeatedInitial
  | replayedLastResort
  | legacyLastResortRecord
  | lastResortRecordFull
  | agreementFailed
  deriving DecidableEq, Repr

/-- The initial message an initiator has still to send. -/
structure PendingInitial where
  ephemeralPublic : Arr 32
  kemCiphertext : Bytes
  signedPrekeyId : UInt32
  oneTimePrekeyId : UInt32
  kemPrekeyId : UInt32
  deriving DecidableEq

end Session

/-- One established session. -/
structure Session (K : Type) where
  triple : Triple.State K
  braid : Braid.Braid K
  ratchetPrivate : Arr 32
  identityAd : Bytes
  ourIdentityPublic : Arr 32
  peerIdentityPublic : Arr 32
  pendingInitial : Option Session.PendingInitial
  establishedEphemeral : Option Bytes
  deriving DecidableEq

namespace Session

open Tacenta.Handshake (SessionError encodeEc decodeEc)
open Tacenta.Wire (Composite Codeword AgreementType DecodeError concatAd decodeMessage decodeInitial
  encodeMessage encodeInitial messageType)
open Tacenta.Triple (TripleError)

variable {K : Type}

/-! ## Headers -/

def agreementTypeOf : Braid.MsgType → AgreementType
  | .none => .none
  | .hdr => .hdr
  | .ek => .ek
  | .ekCt1Ack => .ekCt1Ack
  | .ct1 => .ct1
  | .ct2 => .ct2

def msgTypeOf : AgreementType → Braid.MsgType
  | .none => .none
  | .hdr => .hdr
  | .ek => .ek
  | .ekCt1Ack => .ekCt1Ack
  | .ct1 => .ct1
  | .ct2 => .ct2

/-- The composite header: the Triple Ratchet's own, plus the agreement's message. -/
def compositeOf (h : Triple.Header) (m : Braid.Msg) : Composite where
  dh := h.dr.dh
  pn := h.dr.pn
  n := h.dr.n
  pqEpoch := h.epoch
  pqN := h.pqN
  agEpoch := m.epoch
  agType := agreementTypeOf m.ty
  agChunk := m.data.map fun c => ⟨c.index, c.data⟩

def msgOf (c : Composite) : Braid.Msg where
  epoch := c.agEpoch
  ty := msgTypeOf c.agType
  data := c.agChunk.map fun w => ⟨w.index, w.data⟩

def tripleHeaderOf (c : Composite) : Triple.Header where
  dr := { dh := c.dh, pn := c.pn, n := c.n }
  epoch := c.pqEpoch
  pqN := c.pqN

@[simp] theorem msgOf_compositeOf (h : Triple.Header) (m : Braid.Msg) :
    msgOf (compositeOf h m) = m := by
  obtain ⟨epoch, ty, data⟩ := m
  cases ty <;> cases data <;> rfl

@[simp] theorem tripleHeaderOf_compositeOf (h : Triple.Header) (m : Braid.Msg) :
    tripleHeaderOf (compositeOf h m) = h := rfl

/-- What the Braid hands over, as the sparse ratchet takes it. -/
def spqrOutput (o : Braid.Output K) : Spqr.Output K := ⟨o.keyEpoch, o.key⟩

/-! ## Receiving with eviction -/

inductive FullStore where
  | classical
  | postQuantum
  deriving DecidableEq, Repr

/-- Which skipped-key store a refusal says is full. -/
def fullStore : TripleError → Option FullStore
  | .classical .skippedStoreFull => some .classical
  | .postQuantum .skippedStoreFull => some .postQuantum
  | _ => none

/-- How many keys the first eviction aims at: the excess the header implies. -/
def receiveShortfall (half : FullStore) (state : Triple.State K) (composite : Composite) : Nat :=
  match half with
  | .classical =>
      let need := composite.n.toNat - state.receiveCount.toNat
      max 1 (state.classicalSkippedLen + need - Ratchet.maxSkippedStore)
  | .postQuantum =>
      match state.postQuantumReceiveCount composite.pqEpoch with
      | some received =>
          let need := ((composite.pqN.saturatingSub 1).saturatingSub received).toNat
          max 1 (state.postQuantumSkippedLen + need - Spqr.maxSkippedStore)
      | none => 1

def evictForRetry (state : Triple.State K) (half : FullStore) (count : Nat) : Triple.State K × Nat :=
  match half with
  | .classical => state.evictOldestClassical count
  | .postQuantum => state.evictOldestPostQuantum count

/-- How many skipped keys a state holds in both stores. -/
def storedKeys (state : Triple.State K) : Nat :=
  state.classicalSkippedLen + state.postQuantumSkippedLen

theorem length_evictOldest (count : Nat) (l : List (Ratchet.SkippedKey K)) :
    (Ratchet.evictOldest count l).1.length + (Ratchet.evictOldest count l).2 = l.length := by
  induction count generalizing l with
  | zero => rfl
  | succ count ih =>
      cases l with
      | nil => rfl
      | cons k rest =>
          have inside : Ratchet.oldestFrom 0 k.storedAt 1 rest < (k :: rest).length := by
            have scan : ∀ (l : List (Ratchet.SkippedKey K)) (oldest : Nat) (reading : UInt32) (i : Nat),
                oldest < i → Ratchet.oldestFrom oldest reading i l < i + l.length := by
              intro l
              induction l with
              | nil => intro oldest reading i below; simpa [Ratchet.oldestFrom] using below
              | cons k rest ih =>
                  intro oldest reading i below
                  rw [Ratchet.oldestFrom, List.length_cons]
                  split
                  · have := ih i k.storedAt (i + 1) (by omega)
                    omega
                  · have := ih oldest reading (i + 1) (by omega)
                    omega
            have := scan rest 0 k.storedAt 1 (by omega)
            rw [List.length_cons]
            omega
          have := ih ((k :: rest).eraseIdx (Ratchet.oldestFrom 0 k.storedAt 1 rest))
          rw [List.length_eraseIdx_of_lt inside] at this
          simp only [Ratchet.evictOldest, List.length_cons] at this ⊢
          omega

/-- An eviction that evicts anything leaves fewer keys stored. -/
theorem storedKeys_evictForRetry {state : Triple.State K} {half : FullStore} {count : Nat}
    (some_ : (evictForRetry state half count).2 ≠ 0) :
    storedKeys (evictForRetry state half count).1 < storedKeys state := by
  cases half with
  | classical =>
      have := length_evictOldest count state.classical.skipped
      simp only [evictForRetry, Triple.State.evictOldestClassical, Ratchet.State.evictOldest,
        storedKeys, Triple.State.classicalSkippedLen, Ratchet.State.skippedLen,
        Triple.State.postQuantumSkippedLen] at some_ ⊢
      omega
  | postQuantum =>
      simp only [evictForRetry, Triple.State.evictOldestPostQuantum, Spqr.State.evictOldest,
        storedKeys, Triple.State.classicalSkippedLen, Triple.State.postQuantumSkippedLen,
        Spqr.State.skippedLen, List.length_drop] at some_ ⊢
      omega

/-- The retry loop of `receive_with_eviction`: evict, try again, double the
batch, and start the batch over when the other store is the full one. -/
def evictLoop (kdf : Kdf K) (composite : Composite) (header : Triple.Header)
    (dhOutRecv dhOutSend : K) (newDhsPub : Arr 32) (output : Option (Spqr.Output K))
    (work : Triple.State K) (half : FullStore) (batch : Nat) (pending : TripleError) :
    Except TripleError (Triple.State K × K) :=
  let evicted := evictForRetry work half batch
  if _none : evicted.2 = 0 then .error pending
  else
    match evicted.1.receive kdf header dhOutRecv dhOutSend newDhsPub output with
    | .ok value => .ok value
    | .error error =>
        match fullStore error with
        | none => .error error
        | some next =>
            let batch := if next ≠ half then receiveShortfall next evicted.1 composite
              else batch + batch
            evictLoop kdf composite header dhOutRecv dhOutSend newDhsPub output evicted.1 next batch
              error
termination_by storedKeys work
decreasing_by exact storedKeys_evictForRetry ‹_›

def receiveWithEviction (kdf : Kdf K) (state : Triple.State K) (composite : Composite)
    (header : Triple.Header) (dhOutRecv dhOutSend : K) (newDhsPub : Arr 32)
    (output : Option (Spqr.Output K)) : Except TripleError (Triple.State K × K) :=
  match state.receive kdf header dhOutRecv dhOutSend newDhsPub output with
  | .ok value => .ok value
  | .error first =>
      match fullStore first with
      | none => .error first
      | some half =>
          evictLoop kdf composite header dhOutRecv dhOutSend newDhsPub output state half
            (receiveShortfall half state composite) first

/-! ## The session -/

def agreementFailed (s : Session K) : Bool := s.braid.failed

/-- Which side of the handshake this session is on. -/
def isResponder (s : Session K) : Bool := s.establishedEphemeral.isSome

/-- The initial message's wrapper around a ratchet message. -/
def wrapInitial (s : Session K) (pending : PendingInitial) (ratchetMessage : Bytes) : Bytes :=
  encodeInitial (encodeEc s.ourIdentityPublic) (encodeEc pending.ephemeralPublic)
    pending.kemCiphertext pending.signedPrekeyId pending.oneTimePrekeyId pending.kemPrekeyId
    ratchetMessage

/-- Encrypt a message.  The agreement runs first and commits last. -/
def encrypt (p : Primitives K) (s : Session K) (plaintext : Bytes) (rng : Rng) :
    Session K × Except Error Bytes × Rng :=
  if s.braid.failed then (s, .error .agreementFailed, rng)
  else
    let (agMsg, sendingEpoch, output, braidNext, rng) := s.braid.send p.kdf p.incKem rng
    if braidNext.failed then ({ s with braid := braidNext }, .error .agreementFailed, rng)
    else
      match s.triple.send p.kdf sendingEpoch (output.map spqrOutput) with
      | (_, .error e) => (s, .error (.triple e), rng)
      | (candidate, .ok (header, key)) =>
          let composite := compositeOf header agMsg
          let (enc, mac, iv) := Ratchet.messageKeys p.kdf key .tacenta
          let ad := concatAd s.identityAd composite
          let ciphertext := p.aead.encrypt enc mac iv plaintext ad
          let ratchetMessage := encodeMessage composite ciphertext
          let committed := { s with triple := candidate, braid := braidNext }
          match s.pendingInitial with
          | none => (committed, .ok ratchetMessage, rng)
          | some pending => (committed, .ok (s.wrapInitial pending ratchetMessage), rng)

/-- Decrypt a ratchet message.  Every refusal comes before the one place the
session is written, after the tag has verified. -/
def decryptRatchet (p : Primitives K) (s : Session K) (message : Bytes) (rng : Rng) :
    Session K × Except Error Bytes × Rng :=
  if s.braid.failed then (s, .error .agreementFailed, rng)
  else
    match decodeMessage message with
    | .error e => (s, .error (.decode e), rng)
    | .ok decoded =>
        let composite := decoded.header
        let (_, agOut, braidCandidate) := s.braid.receive p.kdf p.incKem (msgOf composite)
        match p.dh.agree s.ratchetPrivate composite.dh with
        | none => (s, .error (.handshake .nonContributoryAgreement), rng)
        | some dhOutRecv =>
            let (candidateKey, rng) := randomSecret rng
            match p.dh.agree candidateKey composite.dh with
            | none => (s, .error (.handshake .nonContributoryAgreement), rng)
            | some dhOutSend =>
                let before := s.triple.sendingPublic
                let header := tripleHeaderOf composite
                match receiveWithEviction p.kdf s.triple composite header dhOutRecv dhOutSend
                    (p.dh.publicKey candidateKey) (agOut.map spqrOutput) with
                | .error e => (s, .error (.triple e), rng)
                | .ok (tripleCandidate, key) =>
                    let (enc, mac, iv) := Ratchet.messageKeys p.kdf key .tacenta
                    let ad := concatAd s.identityAd composite
                    match p.aead.decrypt enc mac iv decoded.ciphertext ad with
                    | none => (s, .error .aead, rng)
                    | some plaintext =>
                        let ratchetPrivate :=
                          if tripleCandidate.sendingPublic ≠ before then candidateKey
                          else s.ratchetPrivate
                        ({ s with ratchetPrivate := ratchetPrivate
                                  triple := tripleCandidate
                                  braid := braidCandidate }, .ok plaintext, rng)

/-- Whether two ephemeral encodings produce one agreement with `secret`. -/
def sameEphemeralAgreement [DecidableEq K] (dh : Dh K) (secret : Arr 32)
    (established incoming : Bytes) : Bool :=
  match decodeEc established with
  | none => false
  | some established =>
      match decodeEc incoming with
      | none => false
      | some incoming =>
          match dh.agree secret established, dh.agree secret incoming with
          | some left, some right => left == right
          | _, _ => false

/-- The ratchet message inside what arrived: itself, or what a repeat of the
establishing initial message wraps. -/
def innerMessage [DecidableEq K] (p : Primitives K) (s : Session K) (message : Bytes) :
    Except Error Bytes :=
  match messageType message with
  | some .initial =>
      match decodeInitial message with
      | .error e => .error (.decode e)
      | .ok decoded =>
          match s.establishedEphemeral with
          | some e =>
              if sameEphemeralAgreement p.dh s.ratchetPrivate e decoded.ephemeral &&
                  decide (decoded.identity = encodeEc s.peerIdentityPublic) then
                .ok decoded.message
              else .error .notARepeatedInitial
          | none => .error .notARepeatedInitial
  | _ => .ok message

/-- Decrypt a message on an established session. -/
def decrypt [DecidableEq K] (p : Primitives K) (s : Session K) (message : Bytes) (rng : Rng) :
    Session K × Except Error Bytes × Rng :=
  match s.innerMessage p message with
  | .error e => (s, .error e, rng)
  | .ok inner =>
      match s.decryptRatchet p inner rng with
      | (s, .error e, rng) => (s, .error e, rng)
      | (s, .ok plaintext, rng) => ({ s with pendingInitial := none }, .ok plaintext, rng)

end Session

end Tacenta
