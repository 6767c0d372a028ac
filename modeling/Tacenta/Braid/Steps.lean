/-
# Tacenta.Braid.Steps -- every transition of the Braid, once

`Takes` lists what a message can do to a state: nothing, or one of the numbered
transitions, with the codeword that drove it.  `stepReceive_takes` says that the
machine does one of these and no other, so what holds along the machine is
proved by cases on `Takes`.  The three transitions that can fail of themselves
have a lemma each for when they do not.
-/
import Tacenta.Braid.State

set_option autoImplicit false
set_option linter.dupNamespace false

namespace Tacenta.Braid

open Tacenta.Erasure (Chunk Encoder Decoder)
open Tacenta.Kem

variable {K : Type} {kdf : Kdf K} {ikem : IncKem K}

/-- What `msg` does to a state: the output and the next state. -/
inductive Takes (kdf : Kdf K) (ikem : IncKem K) (msg : Msg) :
    State K → Option (Output K) → State K → Prop
  | ignored (st : State K) : Takes kdf ikem msg st none st
  /-- (2) -/
  | headerProved {epoch : UInt64} {auth : Auth K} {kp : IncrementalKeyPair} {hdrEnc : Encoder}
      {c : Chunk} (arrived : msg.payload epoch [.ct1] = some c) :
      Takes kdf ikem msg (.keysSampled epoch auth kp hdrEnc) none
        (.headerSent epoch auth kp ((Decoder.new ct1Len).addChunk c).1
          (Encoder.new (kp.ekVector ikem)))
  | ct1Chunk {epoch : UInt64} {auth : Auth K} {kp : IncrementalKeyPair} {ct1Dec : Decoder}
      {ekEnc : Encoder} {c : Chunk} (arrived : msg.payload epoch [.ct1] = some c)
      (more : (ct1Dec.addChunk c).1.message = none) :
      Takes kdf ikem msg (.headerSent epoch auth kp ct1Dec ekEnc) none
        (.headerSent epoch auth kp (ct1Dec.addChunk c).1 ekEnc)
  /-- (3) -/
  | ct1Complete {epoch : UInt64} {auth : Auth K} {kp : IncrementalKeyPair} {ct1Dec : Decoder}
      {ekEnc : Encoder} {c : Chunk} {ct1 : Bytes} (arrived : msg.payload epoch [.ct1] = some c)
      (yields : (ct1Dec.addChunk c).1.message = some ct1) :
      Takes kdf ikem msg (.headerSent epoch auth kp ct1Dec ekEnc) none
        (.ct1Received epoch auth kp ct1 ekEnc)
  /-- (4) -/
  | ekProved {epoch : UInt64} {auth : Auth K} {kp : IncrementalKeyPair} {ct1 : Bytes}
      {ekEnc : Encoder} {c : Chunk} (arrived : msg.payload epoch [.ct2] = some c) :
      Takes kdf ikem msg (.ct1Received epoch auth kp ct1 ekEnc) none
        (.ekSentCt1Received epoch auth kp ct1 ((Decoder.new (ct2Len + macLen)).addChunk c).1)
  | ct2Chunk {epoch : UInt64} {auth : Auth K} {kp : IncrementalKeyPair} {ct1 : Bytes}
      {ct2Dec : Decoder} {c : Chunk} (arrived : msg.payload epoch [.ct2] = some c)
      (more : (ct2Dec.addChunk c).1.message = none) :
      Takes kdf ikem msg (.ekSentCt1Received epoch auth kp ct1 ct2Dec) none
        (.ekSentCt1Received epoch auth kp ct1 (ct2Dec.addChunk c).1)
  /-- (5) -/
  | ct2Complete {epoch : UInt64} {auth : Auth K} {kp : IncrementalKeyPair} {ct1 : Bytes}
      {ct2Dec : Decoder} {c : Chunk} {framed : Bytes} (arrived : msg.payload epoch [.ct2] = some c)
      (yields : (ct2Dec.addChunk c).1.message = some framed) :
      Takes kdf ikem msg (.ekSentCt1Received epoch auth kp ct1 ct2Dec)
        (completeEpoch kdf ikem epoch auth kp ct1 framed).1
        (completeEpoch kdf ikem epoch auth kp ct1 framed).2
  | headerChunk {epoch : UInt64} {auth : Auth K} {hdrDec : Decoder} {c : Chunk}
      (arrived : msg.payload epoch [.hdr] = some c) (more : (hdrDec.addChunk c).1.message = none) :
      Takes kdf ikem msg (.noHeaderReceived epoch auth hdrDec) none
        (.noHeaderReceived epoch auth (hdrDec.addChunk c).1)
  /-- (6) -/
  | headerComplete {epoch : UInt64} {auth : Auth K} {hdrDec : Decoder} {c : Chunk} {framed : Bytes}
      (arrived : msg.payload epoch [.hdr] = some c)
      (yields : (hdrDec.addChunk c).1.message = some framed) :
      Takes kdf ikem msg (.noHeaderReceived epoch auth hdrDec) none
        (acceptHeader kdf epoch auth framed)
  | ekChunk {epoch : UInt64} {auth : Auth K} {header : Bytes} {encaps : EncapsState} {ct1 : Bytes}
      {ct1Enc : Encoder} {ekDec : Decoder} {c : Chunk}
      (arrived : msg.payload epoch [.ek, .ekCt1Ack] = some c)
      (more : (ekDec.addChunk c).1.message = none) (notAcked : msg.ty ≠ .ekCt1Ack) :
      Takes kdf ikem msg (.ct1Sampled epoch auth header encaps ct1 ct1Enc ekDec) none
        (.ct1Sampled epoch auth header encaps ct1 ct1Enc (ekDec.addChunk c).1)
  /-- (8) -/
  | ekChunkAcked {epoch : UInt64} {auth : Auth K} {header : Bytes} {encaps : EncapsState}
      {ct1 : Bytes} {ct1Enc : Encoder} {ekDec : Decoder} {c : Chunk}
      (arrived : msg.payload epoch [.ek, .ekCt1Ack] = some c)
      (more : (ekDec.addChunk c).1.message = none) (acked : msg.ty = .ekCt1Ack) :
      Takes kdf ikem msg (.ct1Sampled epoch auth header encaps ct1 ct1Enc ekDec) none
        (.ct1Acknowledged epoch auth header encaps ct1 (ekDec.addChunk c).1)
  | ekInvalid {epoch : UInt64} {auth : Auth K} {header : Bytes} {encaps : EncapsState}
      {ct1 : Bytes} {ct1Enc : Encoder} {ekDec : Decoder} {c : Chunk} {ekVector : Bytes}
      (arrived : msg.payload epoch [.ek, .ekCt1Ack] = some c)
      (yields : (ekDec.addChunk c).1.message = some ekVector)
      (invalid : validateEk ikem header ekVector = false) :
      Takes kdf ikem msg (.ct1Sampled epoch auth header encaps ct1 ct1Enc ekDec) none .failed
  /-- (9) -/
  | ekCompleteAcked {epoch : UInt64} {auth : Auth K} {header : Bytes} {encaps : EncapsState}
      {ct1 : Bytes} {ct1Enc : Encoder} {ekDec : Decoder} {c : Chunk} {ekVector : Bytes}
      (arrived : msg.payload epoch [.ek, .ekCt1Ack] = some c)
      (yields : (ekDec.addChunk c).1.message = some ekVector)
      (valid : validateEk ikem header ekVector = true) (acked : msg.ty = .ekCt1Ack) :
      Takes kdf ikem msg (.ct1Sampled epoch auth header encaps ct1 ct1Enc ekDec) none
        (finishEncaps kdf ikem epoch auth encaps ct1 ekVector)
  /-- (10) -/
  | ekComplete {epoch : UInt64} {auth : Auth K} {header : Bytes} {encaps : EncapsState}
      {ct1 : Bytes} {ct1Enc : Encoder} {ekDec : Decoder} {c : Chunk} {ekVector : Bytes}
      (arrived : msg.payload epoch [.ek, .ekCt1Ack] = some c)
      (yields : (ekDec.addChunk c).1.message = some ekVector)
      (valid : validateEk ikem header ekVector = true) (notAcked : msg.ty ≠ .ekCt1Ack) :
      Takes kdf ikem msg (.ct1Sampled epoch auth header encaps ct1 ct1Enc ekDec) none
        (.ekReceivedCt1Sampled epoch auth encaps ct1 ekVector ct1Enc)
  /-- (12) -/
  | acknowledged {epoch : UInt64} {auth : Auth K} {encaps : EncapsState} {ct1 ekVector : Bytes}
      {ct1Enc : Encoder} (current : msg.epoch = epoch) (acked : msg.ty = .ekCt1Ack) :
      Takes kdf ikem msg (.ekReceivedCt1Sampled epoch auth encaps ct1 ekVector ct1Enc) none
        (finishEncaps kdf ikem epoch auth encaps ct1 ekVector)
  | lateChunk {epoch : UInt64} {auth : Auth K} {header : Bytes} {encaps : EncapsState}
      {ct1 : Bytes} {ekDec : Decoder} {c : Chunk} (arrived : msg.payload epoch [.ekCt1Ack] = some c)
      (more : (ekDec.addChunk c).1.message = none) :
      Takes kdf ikem msg (.ct1Acknowledged epoch auth header encaps ct1 ekDec) none
        (.ct1Acknowledged epoch auth header encaps ct1 (ekDec.addChunk c).1)
  | lateInvalid {epoch : UInt64} {auth : Auth K} {header : Bytes} {encaps : EncapsState}
      {ct1 : Bytes} {ekDec : Decoder} {c : Chunk} {ekVector : Bytes}
      (arrived : msg.payload epoch [.ekCt1Ack] = some c)
      (yields : (ekDec.addChunk c).1.message = some ekVector)
      (invalid : validateEk ikem header ekVector = false) :
      Takes kdf ikem msg (.ct1Acknowledged epoch auth header encaps ct1 ekDec) none .failed
  /-- (11) -/
  | lateComplete {epoch : UInt64} {auth : Auth K} {header : Bytes} {encaps : EncapsState}
      {ct1 : Bytes} {ekDec : Decoder} {c : Chunk} {ekVector : Bytes}
      (arrived : msg.payload epoch [.ekCt1Ack] = some c)
      (yields : (ekDec.addChunk c).1.message = some ekVector)
      (valid : validateEk ikem header ekVector = true) :
      Takes kdf ikem msg (.ct1Acknowledged epoch auth header encaps ct1 ekDec) none
        (finishEncaps kdf ikem epoch auth encaps ct1 ekVector)
  /-- The last epoch has no next one. -/
  | ceiling {epoch : UInt64} {auth : Auth K} {ct2Enc : Encoder}
      (last : 2 ^ 64 - 1 ≤ epoch.toNat + 1) :
      Takes kdf ikem msg (.ct2Sampled epoch auth ct2Enc) none .failed
  /-- (13) -/
  | swapped {epoch next : UInt64} {auth : Auth K} {ct2Enc : Encoder}
      (climbs : next.toNat = epoch.toNat + 1) (below : next ≠ UInt64.maxValue)
      (theirs : msg.epoch = next) :
      Takes kdf ikem msg (.ct2Sampled epoch auth ct2Enc) none (.keysUnsampled next auth)

/-- **A receive is one of these transitions.** -/
theorem stepReceive_takes (kdf : Kdf K) (ikem : IncKem K) (msg : Msg) (st : State K) :
    Takes kdf ikem msg st (stepReceive kdf ikem msg st).1 (stepReceive kdf ikem msg st).2 := by
  cases st with
  | keysUnsampled | headerReceived | failed => exact .ignored _
  | keysSampled epoch auth kp hdrEnc =>
      simp only [stepReceive]
      cases arrived : msg.payload epoch [.ct1] with
      | none => exact .ignored _
      | some c => exact .headerProved arrived
  | headerSent epoch auth kp ct1Dec ekEnc =>
      simp only [stepReceive]
      cases arrived : msg.payload epoch [.ct1] with
      | none => exact .ignored _
      | some c =>
          simp only
          cases yields : (ct1Dec.addChunk c).1.message with
          | none => exact .ct1Chunk arrived yields
          | some ct1 => exact .ct1Complete arrived yields
  | ct1Received epoch auth kp ct1 ekEnc =>
      simp only [stepReceive]
      cases arrived : msg.payload epoch [.ct2] with
      | none => exact .ignored _
      | some c => exact .ekProved arrived
  | ekSentCt1Received epoch auth kp ct1 ct2Dec =>
      simp only [stepReceive]
      cases arrived : msg.payload epoch [.ct2] with
      | none => exact .ignored _
      | some c =>
          simp only
          cases yields : (ct2Dec.addChunk c).1.message with
          | none => exact .ct2Chunk arrived yields
          | some framed => exact .ct2Complete arrived yields
  | noHeaderReceived epoch auth hdrDec =>
      simp only [stepReceive]
      cases arrived : msg.payload epoch [.hdr] with
      | none => exact .ignored _
      | some c =>
          simp only
          cases yields : (hdrDec.addChunk c).1.message with
          | none => exact .headerChunk arrived yields
          | some framed => exact .headerComplete arrived yields
  | ct1Sampled epoch auth header encaps ct1 ct1Enc ekDec =>
      simp only [stepReceive, beq_iff_eq]
      cases arrived : msg.payload epoch [.ek, .ekCt1Ack] with
      | none => exact .ignored _
      | some c =>
          simp only
          by_cases acked : msg.ty = .ekCt1Ack
          · simp only [acked, if_true]
            cases yields : (ekDec.addChunk c).1.message with
            | none => exact .ekChunkAcked arrived yields acked
            | some ekVector =>
                simp only
                cases valid : validateEk ikem header ekVector with
                | false => exact .ekInvalid arrived yields valid
                | true => exact .ekCompleteAcked arrived yields valid acked
          · simp only [acked, if_false]
            cases yields : (ekDec.addChunk c).1.message with
            | none => exact .ekChunk arrived yields acked
            | some ekVector =>
                simp only
                cases valid : validateEk ikem header ekVector with
                | false => exact .ekInvalid arrived yields valid
                | true => exact .ekComplete arrived yields valid acked
  | ekReceivedCt1Sampled epoch auth encaps ct1 ekVector ct1Enc =>
      simp only [stepReceive]
      split
      · rename_i arrived
        exact .acknowledged arrived.1 arrived.2
      · exact .ignored _
  | ct1Acknowledged epoch auth header encaps ct1 ekDec =>
      simp only [stepReceive]
      cases arrived : msg.payload epoch [.ekCt1Ack] with
      | none => exact .ignored _
      | some c =>
          simp only
          cases yields : (ekDec.addChunk c).1.message with
          | none => exact .lateChunk arrived yields
          | some ekVector =>
              simp only
              cases valid : validateEk ikem header ekVector with
              | false => exact .lateInvalid arrived yields valid
              | true => exact .lateComplete arrived yields valid
  | ct2Sampled epoch auth ct2Enc =>
      simp only [stepReceive]
      cases climbs : epoch.checkedAdd 1 with
      | none =>
          rw [UInt64.checkedAdd_eq_none, UInt64.toNat_one] at climbs
          exact .ceiling (by omega)
      | some next =>
          rw [UInt64.checkedAdd_eq_some, UInt64.toNat_one] at climbs
          simp only
          by_cases last : next = UInt64.maxValue
          · rw [if_pos last]
            rw [last, UInt64.toNat_maxValue] at climbs
            exact .ceiling (by omega)
          · rw [if_neg last]
            by_cases theirs : msg.epoch = next
            · rw [if_pos theirs]
              exact .swapped climbs last theirs
            · rw [if_neg theirs]
              exact .ignored _

theorem failed_iff {b : Braid K} : b.failed = true ↔ b.state = .failed := by
  obtain ⟨state⟩ := b
  cases state <;> simp [Braid.failed]

theorem alive_iff {b : Braid K} : b.failed = false ↔ b.state ≠ .failed := by
  rw [Ne, ← failed_iff, Bool.not_eq_true]

/-- What `receive` answers with, besides the epoch it reports. -/
theorem receive_snd (kdf : Kdf K) (ikem : IncKem K) (b : Braid K) (msg : Msg) :
    (b.receive kdf ikem msg).2 =
      ((stepReceive kdf ikem msg b.state).1, ⟨(stepReceive kdf ikem msg b.state).2⟩) := by
  unfold Braid.receive
  cases h : (stepReceive kdf ikem msg b.state).1 with
  | none => simp only [h]
  | some o => simp only [h]

/-! ## Transitions that can fail, when they do not -/

theorem finishEncaps_alive {epoch : UInt64} {auth : Auth K} {encaps : EncapsState}
    {ct1 ekVector : Bytes} (alive : finishEncaps kdf ikem epoch auth encaps ct1 ekVector ≠ .failed) :
    ∃ ct2, encapsulate2 ikem encaps ekVector = some ct2 ∧
      finishEncaps kdf ikem epoch auth encaps ct1 ekVector =
        .ct2Sampled epoch auth (Encoder.new (ct2 ++ auth.macCt kdf epoch ct1 ct2)) := by
  unfold finishEncaps at alive ⊢
  cases completed : encapsulate2 ikem encaps ekVector with
  | none => simp [completed] at alive
  | some ct2 => exact ⟨ct2, rfl, rfl⟩

theorem acceptHeader_alive {epoch : UInt64} {auth : Auth K} {framed : Bytes}
    (alive : acceptHeader kdf epoch auth framed ≠ .failed) :
    auth.macHdr kdf epoch (framed.take headerLen) = framed.drop headerLen ∧
      acceptHeader kdf epoch auth framed =
        .headerReceived epoch auth (framed.take headerLen) (Decoder.new ekVectorLen) := by
  unfold acceptHeader at alive ⊢
  split at alive
  · exact absurd rfl alive
  · rename_i long
    rw [if_neg long]
    simp only at alive ⊢
    split at alive
    · exact absurd rfl alive
    · rename_i verified
      rw [if_neg verified]
      exact ⟨by simpa using verified, rfl⟩

theorem completeEpoch_alive {epoch : UInt64} {auth : Auth K} {kp : IncrementalKeyPair}
    {ct1 framed : Bytes} (alive : (completeEpoch kdf ikem epoch auth kp ct1 framed).2 ≠ .failed) :
    ∃ next raw, next.toNat = epoch.toNat + 1 ∧ next ≠ UInt64.maxValue ∧
      kp.decapsulate ikem ct1 (framed.take ct2Len) = some raw ∧
      completeEpoch kdf ikem epoch auth kp ct1 framed =
        (some ⟨epoch, kdfOk kdf raw epoch⟩,
          .noHeaderReceived next (auth.update kdf epoch (kdf.bytes (kdfOk kdf raw epoch)))
            hdrDecoder) := by
  unfold completeEpoch at alive ⊢
  split at alive
  · exact absurd rfl alive
  rename_i long
  rw [if_neg long]
  cases climbs : epoch.checkedAdd 1 with
  | none => simp [climbs] at alive
  | some next =>
      simp only [climbs] at alive ⊢
      rw [UInt64.checkedAdd_eq_some, UInt64.toNat_one] at climbs
      split at alive
      · exact absurd rfl alive
      rename_i below
      rw [if_neg below]
      cases decapsulated : kp.decapsulate ikem ct1 (framed.take ct2Len) with
      | none => simp [decapsulated] at alive
      | some raw =>
          simp only [decapsulated] at alive ⊢
          split at alive
          · exact absurd rfl alive
          · rename_i verified
            rw [if_neg verified]
            exact ⟨next, raw, climbs, below, rfl, rfl⟩

end Tacenta.Braid
