/-
# Tacenta.Braid.State -- the ML-KEM Braid

`tacenta-braid`: two parties who can only exchange small messages agree on one
post-quantum secret an epoch.  Eleven states and the terminal one; `stepSend`
and `stepReceive` are the machine, transition by transition, under the numbers
the crate gives them.  Both return a candidate, and nothing here decides whether
it is adopted.
-/
import Tacenta.Erasure.Code
import Tacenta.Kem

set_option autoImplicit false
set_option linter.dupNamespace false

namespace Tacenta.Braid

open Tacenta.Erasure (Chunk Encoder Decoder chunkCount)
open Tacenta.Kem

variable {K : Type}

def macLen : Nat := 32

def protocolInfo : Bytes := ascii "Tacenta_MLKEM1024_SHA-256"
def authUpdate : Bytes := ascii ":Authenticator Update"
def sckaKey : Bytes := ascii ":SCKA Key"
def ekHeader : Bytes := ascii ":ekheader"
def ciphertext : Bytes := ascii ":ciphertext"

/-- A key the agreement produced, with the epoch it belongs to. -/
structure Output (K : Type) where
  keyEpoch : UInt64
  key : K
  deriving DecidableEq

inductive MsgType where
  | none
  | hdr
  | ek
  | ekCt1Ack
  | ct1
  | ct2
  deriving DecidableEq, Repr

structure Msg where
  epoch : UInt64
  ty : MsgType
  data : Option Chunk
  deriving DecidableEq

namespace Msg

def empty (epoch : UInt64) : Msg := { epoch := epoch, ty := .none, data := none }

/-- A message carrying a codeword.  A stream that has issued every codeword has
nothing left to say, and the type goes with it. -/
def withChunk (epoch : UInt64) (ty : MsgType) : Option Chunk → Msg
  | some c => { epoch := epoch, ty := ty, data := some c }
  | none => empty epoch

end Msg

/-! ## The ratcheted authenticator -/

structure Auth (K : Type) where
  rootKey : K
  macKey : K
  deriving DecidableEq

def info (label : Bytes) (epoch : UInt64) : Bytes := protocolInfo ++ label ++ be64 epoch

namespace Auth

/-- Absorb new entropy: a new root and a new MAC key. -/
def update (kdf : Kdf K) (a : Auth K) (epoch : UInt64) (key : Bytes) : Auth K :=
  let out := kdf.hkdf (kdf.bytes a.rootKey) key (info authUpdate epoch)
  { rootKey := out 0, macKey := out 1 }

def init (kdf : Kdf K) (epoch : UInt64) (secret : Bytes) : Auth K :=
  update kdf { rootKey := kdf.zero, macKey := kdf.zero } epoch secret

def macHdr (kdf : Kdf K) (a : Auth K) (epoch : UInt64) (hdr : Bytes) : Bytes :=
  kdf.bytes (kdf.hmac (kdf.bytes a.macKey) (info ekHeader epoch ++ hdr))

def macCt (kdf : Kdf K) (a : Auth K) (epoch : UInt64) (ct1 ct2 : Bytes) : Bytes :=
  kdf.bytes (kdf.hmac (kdf.bytes a.macKey) (info ciphertext epoch ++ ct1 ++ ct2))

end Auth

/-- The epoch key, derived from the raw shared secret. -/
def kdfOk (kdf : Kdf K) (sharedSecret : K) (epoch : UInt64) : K :=
  kdf.hkdf Kdf.zeroSalt (kdf.bytes sharedSecret) (info sckaKey epoch) 0

/-! ## The states -/

inductive State (K : Type) where
  | keysUnsampled (epoch : UInt64) (auth : Auth K)
  | keysSampled (epoch : UInt64) (auth : Auth K) (kp : IncrementalKeyPair) (hdrEnc : Encoder)
  | headerSent (epoch : UInt64) (auth : Auth K) (kp : IncrementalKeyPair) (ct1Dec : Decoder)
      (ekEnc : Encoder)
  | ct1Received (epoch : UInt64) (auth : Auth K) (kp : IncrementalKeyPair) (ct1 : Bytes)
      (ekEnc : Encoder)
  | ekSentCt1Received (epoch : UInt64) (auth : Auth K) (kp : IncrementalKeyPair) (ct1 : Bytes)
      (ct2Dec : Decoder)
  | noHeaderReceived (epoch : UInt64) (auth : Auth K) (hdrDec : Decoder)
  | headerReceived (epoch : UInt64) (auth : Auth K) (header : Bytes) (ekDec : Decoder)
  | ct1Sampled (epoch : UInt64) (auth : Auth K) (header : Bytes) (encaps : EncapsState)
      (ct1 : Bytes) (ct1Enc : Encoder) (ekDec : Decoder)
  | ekReceivedCt1Sampled (epoch : UInt64) (auth : Auth K) (encaps : EncapsState) (ct1 : Bytes)
      (ekVector : Bytes) (ct1Enc : Encoder)
  | ct1Acknowledged (epoch : UInt64) (auth : Auth K) (header : Bytes) (encaps : EncapsState)
      (ct1 : Bytes) (ekDec : Decoder)
  | ct2Sampled (epoch : UInt64) (auth : Auth K) (ct2Enc : Encoder)
  | failed
  deriving DecidableEq

def hdrDecoder : Decoder := Decoder.new (headerLen + macLen)

namespace State

/-- The epoch being negotiated; zero once failed. -/
def epoch : State K → UInt64
  | keysUnsampled e .. | keysSampled e .. | headerSent e .. | ct1Received e ..
  | ekSentCt1Received e .. | noHeaderReceived e .. | headerReceived e .. | ct1Sampled e ..
  | ekReceivedCt1Sampled e .. | ct1Acknowledged e .. | ct2Sampled e .. => e
  | failed => 0

def stateTag : State K → UInt8
  | keysUnsampled .. => 0
  | keysSampled .. => 1
  | headerSent .. => 2
  | ct1Received .. => 3
  | ekSentCt1Received .. => 4
  | noHeaderReceived .. => 5
  | headerReceived .. => 6
  | ct1Sampled .. => 7
  | ekReceivedCt1Sampled .. => 8
  | ct1Acknowledged .. => 9
  | ct2Sampled .. => 10
  | failed => 11

/-- Whether this party sends the header of the current epoch. -/
def sendsHeader : State K → Option Bool
  | keysUnsampled .. | keysSampled .. | headerSent .. | ct1Received .. | ekSentCt1Received .. =>
      some true
  | noHeaderReceived .. | headerReceived .. | ct1Sampled .. | ekReceivedCt1Sampled ..
  | ct1Acknowledged .. | ct2Sampled .. => some false
  | failed => none

end State

/-- One party's half of the agreement. -/
structure Braid (K : Type) where
  state : State K
  deriving DecidableEq

def encoderSized (enc : Encoder) (len : Nat) : Bool := decide (enc.needed = chunkCount len)
def decoderSized (dec : Decoder) (len : Nat) : Bool := decide (dec.size = len)

/-- Whether a pair's own two public parts pass the key check. -/
def keyPairValid (ikem : IncKem K) (kp : IncrementalKeyPair) : Bool :=
  validateEk ikem (kp.header ikem) (kp.ekVector ikem)

namespace Braid

/-- The party that sends an encapsulation key first. -/
def initiator (kdf : Kdf K) (secret : Bytes) : Braid K :=
  ⟨.keysUnsampled 1 (Auth.init kdf 1 secret)⟩

/-- The party that waits for one. -/
def responder (kdf : Kdf K) (secret : Bytes) : Braid K :=
  ⟨.noHeaderReceived 1 (Auth.init kdf 1 secret) hdrDecoder⟩

def epoch (b : Braid K) : UInt64 := b.state.epoch

def failed (b : Braid K) : Bool :=
  match b.state with
  | .failed => true
  | _ => false

def stateTag (b : Braid K) : UInt8 := b.state.stateTag

/-- Which party this is; nothing once failed. -/
def isInitiator (b : Braid K) : Option Bool :=
  match b.state.sendsHeader with
  | none => none
  | some sendsHeader =>
      let odd := b.state.epoch % 2 == 1
      if sendsHeader then some odd else some !odd

/-- What the constructors and every transition maintain, as the decoder checks it. -/
def invariant (ikem : IncKem K) (b : Braid K) : Bool :=
  match b.state with
  | .keysUnsampled epoch _ => decide (epoch ≥ 1)
  | .keysSampled epoch _ kp hdrEnc =>
      decide (epoch ≥ 1) && hdrEnc.invariant && encoderSized hdrEnc (headerLen + macLen) &&
        keyPairValid ikem kp
  | .headerSent epoch _ kp ct1Dec ekEnc =>
      decide (epoch ≥ 1) && ct1Dec.invariant && decoderSized ct1Dec ct1Len && ekEnc.invariant &&
        encoderSized ekEnc ekVectorLen && keyPairValid ikem kp
  | .ct1Received epoch _ kp ct1 ekEnc =>
      decide (epoch ≥ 1) && decide (ct1.length = ct1Len) && ekEnc.invariant &&
        encoderSized ekEnc ekVectorLen && keyPairValid ikem kp
  | .ekSentCt1Received epoch _ kp ct1 ct2Dec =>
      decide (epoch ≥ 1) && decide (ct1.length = ct1Len) && ct2Dec.invariant &&
        decoderSized ct2Dec (ct2Len + macLen) && keyPairValid ikem kp
  | .noHeaderReceived epoch _ hdrDec =>
      decide (epoch ≥ 1) && hdrDec.invariant && decoderSized hdrDec (headerLen + macLen)
  | .headerReceived epoch _ header ekDec =>
      decide (epoch ≥ 1) && decide (header.length = headerLen) && ekDec.invariant &&
        decoderSized ekDec ekVectorLen
  | .ct1Sampled epoch _ header _ ct1 ct1Enc ekDec =>
      decide (epoch ≥ 1) && decide (header.length = headerLen) && decide (ct1.length = ct1Len) &&
        ct1Enc.invariant && encoderSized ct1Enc ct1Len && ekDec.invariant &&
        decoderSized ekDec ekVectorLen
  | .ekReceivedCt1Sampled epoch _ _ ct1 ekVector ct1Enc =>
      decide (epoch ≥ 1) && decide (ct1.length = ct1Len) &&
        decide (ekVector.length = ekVectorLen) && ct1Enc.invariant && encoderSized ct1Enc ct1Len
  | .ct1Acknowledged epoch _ header _ ct1 ekDec =>
      decide (epoch ≥ 1) && decide (header.length = headerLen) && decide (ct1.length = ct1Len) &&
        ekDec.invariant && decoderSized ekDec ekVectorLen
  | .ct2Sampled epoch _ ct2Enc =>
      decide (epoch ≥ 1) && ct2Enc.invariant && encoderSized ct2Enc (ct2Len + macLen)
  | .failed => true

/-- The epoch both parties are known to hold. -/
def reported (b : Braid K) : UInt64 := b.state.epoch.saturatingSub 1

end Braid

/-! ## Sending -/

/-- `step_send`: the message, the output, the next state. -/
def stepSend (kdf : Kdf K) (ikem : IncKem K) (rng : Rng) :
    State K → Msg × Option (Output K) × State K × Rng
  -- (1): sample a key pair and start sending its header.
  | .keysUnsampled epoch auth =>
      match IncrementalKeyPair.generate ikem rng with
      | (none, rng) => (Msg.empty epoch, none, .failed, rng)
      | (some kp, rng) =>
          let header := kp.header ikem
          let framed := header ++ auth.macHdr kdf epoch header
          let (chunk, hdrEnc) := (Encoder.new framed).nextChunk
          (Msg.withChunk epoch .hdr chunk, none, .keysSampled epoch auth kp hdrEnc, rng)
  | .keysSampled epoch auth kp hdrEnc =>
      let (chunk, hdrEnc) := hdrEnc.nextChunk
      (Msg.withChunk epoch .hdr chunk, none, .keysSampled epoch auth kp hdrEnc, rng)
  | .headerSent epoch auth kp ct1Dec ekEnc =>
      let (chunk, ekEnc) := ekEnc.nextChunk
      (Msg.withChunk epoch .ek chunk, none, .headerSent epoch auth kp ct1Dec ekEnc, rng)
  -- The acknowledgement rides on the chunk.
  | .ct1Received epoch auth kp ct1 ekEnc =>
      let (chunk, ekEnc) := ekEnc.nextChunk
      (Msg.withChunk epoch .ekCt1Ack chunk, none, .ct1Received epoch auth kp ct1 ekEnc, rng)
  | .ekSentCt1Received epoch auth kp ct1 ct2Dec =>
      (Msg.empty epoch, none, .ekSentCt1Received epoch auth kp ct1 ct2Dec, rng)
  | .noHeaderReceived epoch auth hdrDec =>
      (Msg.empty epoch, none, .noHeaderReceived epoch auth hdrDec, rng)
  -- (7): sample ct1, and with it the epoch's secret.
  | .headerReceived epoch auth header ekDec =>
      match encapsulate1 ikem header rng with
      | (none, rng) => (Msg.empty epoch, none, .failed, rng)
      | (some (encaps, ct1, raw), rng) =>
          let key := kdfOk kdf raw epoch
          let auth := auth.update kdf epoch (kdf.bytes key)
          let (chunk, ct1Enc) := (Encoder.new ct1).nextChunk
          (Msg.withChunk epoch .ct1 chunk, some ⟨epoch, key⟩,
            .ct1Sampled epoch auth header encaps ct1 ct1Enc ekDec, rng)
  | .ct1Sampled epoch auth header encaps ct1 ct1Enc ekDec =>
      let (chunk, ct1Enc) := ct1Enc.nextChunk
      (Msg.withChunk epoch .ct1 chunk, none,
        .ct1Sampled epoch auth header encaps ct1 ct1Enc ekDec, rng)
  | .ekReceivedCt1Sampled epoch auth encaps ct1 ekVector ct1Enc =>
      let (chunk, ct1Enc) := ct1Enc.nextChunk
      (Msg.withChunk epoch .ct1 chunk, none,
        .ekReceivedCt1Sampled epoch auth encaps ct1 ekVector ct1Enc, rng)
  | .ct1Acknowledged epoch auth header encaps ct1 ekDec =>
      (Msg.empty epoch, none, .ct1Acknowledged epoch auth header encaps ct1 ekDec, rng)
  | .ct2Sampled epoch auth ct2Enc =>
      let (chunk, ct2Enc) := ct2Enc.nextChunk
      (Msg.withChunk epoch .ct2 chunk, none, .ct2Sampled epoch auth ct2Enc, rng)
  | .failed => (Msg.empty 0, none, .failed, rng)

/-! ## Receiving -/

/-- Complete the encapsulation and start sending `ct2` with its MAC. -/
def finishEncaps (kdf : Kdf K) (ikem : IncKem K) (epoch : UInt64) (auth : Auth K)
    (encaps : EncapsState) (ct1 ekVector : Bytes) : State K :=
  match encapsulate2 ikem encaps ekVector with
  | none => .failed
  | some ct2 => .ct2Sampled epoch auth (Encoder.new (ct2 ++ auth.macCt kdf epoch ct1 ct2))

/-- The last part of (5): decapsulate, ratchet, verify, emit, advance.  The epoch
`u64::MAX` is reserved, so the step that would land on it is refused. -/
def completeEpoch (kdf : Kdf K) (ikem : IncKem K) (epoch : UInt64) (auth : Auth K)
    (kp : IncrementalKeyPair) (ct1 framed : Bytes) : Option (Output K) × State K :=
  if framed.length ≠ ct2Len + macLen then (none, .failed)
  else
    match epoch.checkedAdd 1 with
    | none => (none, .failed)
    | some nextEpoch =>
        if nextEpoch = UInt64.maxValue then (none, .failed)
        else
          let ct2 := framed.take ct2Len
          let mac := framed.drop ct2Len
          match kp.decapsulate ikem ct1 ct2 with
          | none => (none, .failed)
          | some raw =>
              let key := kdfOk kdf raw epoch
              let auth := auth.update kdf epoch (kdf.bytes key)
              if auth.macCt kdf epoch ct1 ct2 ≠ mac then (none, .failed)
              else (some ⟨epoch, key⟩, .noHeaderReceived nextEpoch auth hdrDecoder)

/-- The last part of (6): the header is complete, and its MAC verifies. -/
def acceptHeader (kdf : Kdf K) (epoch : UInt64) (auth : Auth K) (framed : Bytes) : State K :=
  if framed.length ≠ headerLen + macLen then .failed
  else
    let header := framed.take headerLen
    let mac := framed.drop headerLen
    if auth.macHdr kdf epoch header ≠ mac then .failed
    else .headerReceived epoch auth header (Decoder.new ekVectorLen)

/-- The codeword of a message of this epoch and one of these types. -/
def Msg.payload (msg : Msg) (epoch : UInt64) (types : List MsgType) : Option Chunk :=
  if msg.epoch = epoch ∧ msg.ty ∈ types then msg.data else none

/-- `step_receive`: the output and the next state. -/
def stepReceive (kdf : Kdf K) (ikem : IncKem K) (msg : Msg) :
    State K → Option (Output K) × State K
  | .keysUnsampled epoch auth => (none, .keysUnsampled epoch auth)
  -- (2): a ct1 chunk proves the header got through.
  | .keysSampled epoch auth kp hdrEnc =>
      match msg.payload epoch [.ct1] with
      | some c =>
          (none, .headerSent epoch auth kp ((Decoder.new ct1Len).addChunk c).1
            (Encoder.new (kp.ekVector ikem)))
      | none => (none, .keysSampled epoch auth kp hdrEnc)
  -- (3): ct1 is complete.
  | .headerSent epoch auth kp ct1Dec ekEnc =>
      match msg.payload epoch [.ct1] with
      | some c =>
          let ct1Dec := (ct1Dec.addChunk c).1
          match ct1Dec.message with
          | some ct1 => (none, .ct1Received epoch auth kp ct1 ekEnc)
          | none => (none, .headerSent epoch auth kp ct1Dec ekEnc)
      | none => (none, .headerSent epoch auth kp ct1Dec ekEnc)
  -- (4): a ct2 chunk proves ek_vector got through.
  | .ct1Received epoch auth kp ct1 ekEnc =>
      match msg.payload epoch [.ct2] with
      | some c =>
          (none, .ekSentCt1Received epoch auth kp ct1
            ((Decoder.new (ct2Len + macLen)).addChunk c).1)
      | none => (none, .ct1Received epoch auth kp ct1 ekEnc)
  -- (5)
  | .ekSentCt1Received epoch auth kp ct1 ct2Dec =>
      match msg.payload epoch [.ct2] with
      | some c =>
          let ct2Dec := (ct2Dec.addChunk c).1
          match ct2Dec.message with
          | some framed => completeEpoch kdf ikem epoch auth kp ct1 framed
          | none => (none, .ekSentCt1Received epoch auth kp ct1 ct2Dec)
      | none => (none, .ekSentCt1Received epoch auth kp ct1 ct2Dec)
  -- (6)
  | .noHeaderReceived epoch auth hdrDec =>
      match msg.payload epoch [.hdr] with
      | some c =>
          let hdrDec := (hdrDec.addChunk c).1
          match hdrDec.message with
          | some framed => (none, acceptHeader kdf epoch auth framed)
          | none => (none, .noHeaderReceived epoch auth hdrDec)
      | none => (none, .noHeaderReceived epoch auth hdrDec)
  | .headerReceived epoch auth header ekDec => (none, .headerReceived epoch auth header ekDec)
  -- ek_vector completing and the acknowledgement arriving, in either order.
  | .ct1Sampled epoch auth header encaps ct1 ct1Enc ekDec =>
      match msg.payload epoch [.ek, .ekCt1Ack] with
      | some c =>
          let acked := msg.ty == .ekCt1Ack
          let ekDec := (ekDec.addChunk c).1
          match ekDec.message with
          | some ekVector =>
              if !validateEk ikem header ekVector then (none, .failed)
              -- (9)
              else if acked then (none, finishEncaps kdf ikem epoch auth encaps ct1 ekVector)
              -- (10)
              else (none, .ekReceivedCt1Sampled epoch auth encaps ct1 ekVector ct1Enc)
          | none =>
              -- (8)
              if acked then (none, .ct1Acknowledged epoch auth header encaps ct1 ekDec)
              else (none, .ct1Sampled epoch auth header encaps ct1 ct1Enc ekDec)
      | none => (none, .ct1Sampled epoch auth header encaps ct1 ct1Enc ekDec)
  -- (12): the codeword itself is not looked at.
  | .ekReceivedCt1Sampled epoch auth encaps ct1 ekVector ct1Enc =>
      if msg.epoch = epoch ∧ msg.ty = .ekCt1Ack then
        (none, finishEncaps kdf ikem epoch auth encaps ct1 ekVector)
      else (none, .ekReceivedCt1Sampled epoch auth encaps ct1 ekVector ct1Enc)
  -- (11)
  | .ct1Acknowledged epoch auth header encaps ct1 ekDec =>
      match msg.payload epoch [.ekCt1Ack] with
      | some c =>
          let ekDec := (ekDec.addChunk c).1
          match ekDec.message with
          | some ekVector =>
              if !validateEk ikem header ekVector then (none, .failed)
              else (none, finishEncaps kdf ikem epoch auth encaps ct1 ekVector)
          | none => (none, .ct1Acknowledged epoch auth header encaps ct1 ekDec)
      | none => (none, .ct1Acknowledged epoch auth header encaps ct1 ekDec)
  -- (13): a message from the next epoch means the peer finished.  Swap roles.
  | .ct2Sampled epoch auth ct2Enc =>
      match epoch.checkedAdd 1 with
      | none => (none, .failed)
      | some nextEpoch =>
          if nextEpoch = UInt64.maxValue then (none, .failed)
          else if msg.epoch = nextEpoch then (none, .keysUnsampled nextEpoch auth)
          else (none, .ct2Sampled epoch auth ct2Enc)
  | .failed => (none, .failed)

namespace Braid

/-- The next message, the epoch both parties are known to hold, a key if this is
the moment one became available, and the agreement after it. -/
def send (kdf : Kdf K) (ikem : IncKem K) (b : Braid K) (rng : Rng) :
    Msg × UInt64 × Option (Output K) × Braid K × Rng :=
  let (msg, out, next, rng) := stepSend kdf ikem rng b.state
  let candidate : Braid K := ⟨next⟩
  (msg, candidate.reported, out, candidate, rng)

/-- Take a message in: the epoch, a key if this message completed one, and the
agreement it would produce. -/
def receive (kdf : Kdf K) (ikem : IncKem K) (b : Braid K) (msg : Msg) :
    UInt64 × Option (Output K) × Braid K :=
  let (out, next) := stepReceive kdf ikem msg b.state
  let candidate : Braid K := ⟨next⟩
  match out with
  | some o => (o.keyEpoch, out, candidate)
  | none => (candidate.reported, none, candidate)

end Braid

end Tacenta.Braid
