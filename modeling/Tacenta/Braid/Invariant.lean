/-
# Tacenta.Braid.Invariant -- what every transition of the Braid keeps

* `stepSend_invariant`, `stepReceive_invariant`: the decoder's invariant, over
  the lengths of headers, vectors and ciphertexts and the streams that carry
  them;
* `stepSend_emitted`, `stepReceive_emitted`: how many epoch keys a party has
  emitted is a function of its state, and a transition emits exactly the next
  one or none.
-/
import Tacenta.Braid.Steps
import Tacenta.Erasure.Coders

set_option autoImplicit false
set_option linter.dupNamespace false

namespace Tacenta.Braid

open Tacenta.Erasure (Chunk Encoder Decoder chunkCount)
open Tacenta.Kem

variable {K : Type} {kdf : Kdf K} {ikem : IncKem K}

/-! ## Lengths -/

theorem encoderSized_new {message : Bytes} {len : Nat} (length : message.length = len)
    (small : chunkCount len ≤ Erasure.maxCodewords) : encoderSized (Encoder.new message) len = true := by
  rw [encoderSized, Encoder.new_needed (by rw [length]; exact small), length]
  simp

@[simp] theorem encoderSized_nextChunk (enc : Encoder) (len : Nat) :
    encoderSized enc.nextChunk.2 len = encoderSized enc len := by
  simp [encoderSized]

@[simp] theorem decoderSized_addChunk (dec : Decoder) (c : Chunk) (len : Nat) :
    decoderSized (dec.addChunk c).1 len = decoderSized dec len := by
  simp [decoderSized]

@[simp] theorem decoderSized_new (len : Nat) : decoderSized (Decoder.new len) len = true := by
  simp [decoderSized, Decoder.new]

theorem hdrDecoder_invariant : hdrDecoder.invariant = true := by decide

theorem length_of_message {dec : Decoder} {len : Nat} {value : Bytes} (inv : dec.invariant = true)
    (sized : decoderSized dec len = true) (yields : dec.message = some value) :
    value.length = len := by
  rw [Decoder.message_length inv yields]
  exact of_decide_eq_true sized

namespace State

/-- The invariant, on the bare state. -/
def Valid (ikem : IncKem K) (st : State K) : Prop := Braid.invariant ikem ⟨st⟩ = true

theorem failed_valid : Valid ikem (failed : State K) := rfl

/-- The epoch of a live state is at least one. -/
theorem Valid.epoch_pos {st : State K} (valid : Valid ikem st) (alive : st ≠ failed) :
    1 ≤ st.epoch := by
  cases st <;> simp_all [Valid, Braid.invariant, epoch]

end State

open State (Valid)

/-! ## Sending -/

theorem generate_valid (wf : ikem.WellFormed) {rng rng' : Rng} {kp : IncrementalKeyPair}
    (generated : IncrementalKeyPair.generate ikem rng = (some kp, rng')) :
    keyPairValid ikem kp = true := by
  simp only [IncrementalKeyPair.generate, Prod.mk.injEq, Option.map_eq_some_iff] at generated
  obtain ⟨⟨raw, sampled, rfl⟩, -⟩ := generated
  exact wf.keyPair_valid _ raw sampled

theorem encapsulate1_lengths (wf : ikem.WellFormed) {header ct1 : Bytes} {rng rng' : Rng}
    {encaps : EncapsState} {raw : K}
    (sampled : encapsulate1 ikem header rng = (some (encaps, ct1, raw), rng')) :
    header.length = headerLen ∧ encaps.raw.length = encapsStateLen ∧ ct1.length = ct1Len := by
  unfold encapsulate1 at sampled
  split at sampled
  · simp at sampled
  · rename_i long
    simp only [Prod.mk.injEq, Option.map_eq_some_iff] at sampled
    obtain ⟨⟨⟨st, c, ss⟩, drawn, rfl, rfl, rfl⟩, -⟩ := sampled
    exact ⟨by simpa using long, wf.state_length _ _ _ _ _ drawn, wf.ct1_length _ _ _ _ _ drawn⟩

/-- **Sending keeps the invariant.** -/
theorem stepSend_invariant (wf : ikem.WellFormed) (sized : kdf.Sized) {st : State K}
    (valid : Valid ikem st) (rng : Rng) : Valid ikem (stepSend kdf ikem rng st).2.2.1 := by
  cases st with
  | keysUnsampled epoch auth =>
      simp only [stepSend]
      cases generated : IncrementalKeyPair.generate ikem rng with
      | mk result rng' =>
          cases result with
          | none => exact State.failed_valid
          | some kp =>
              have framed : (kp.header ikem ++ auth.macHdr kdf epoch (kp.header ikem)).length =
                  headerLen + macLen := by
                simp [IncrementalKeyPair.header, wf.header_length, Auth.macHdr, sized _, macLen]
              have fits := encoderSized_new framed (by decide)
              have start := Encoder.nextChunk_invariant (Encoder.new_invariant
                (kp.header ikem ++ auth.macHdr kdf epoch (kp.header ikem)))
              simp only [Valid, Braid.invariant, Bool.and_eq_true, decide_eq_true_eq] at valid ⊢
              exact ⟨⟨⟨valid, start⟩, by rw [encoderSized_nextChunk]; exact fits⟩,
                generate_valid wf generated⟩
  | headerReceived epoch auth header ekDec =>
      simp only [stepSend]
      cases sampled : encapsulate1 ikem header rng with
      | mk result rng' =>
          cases result with
          | none => exact State.failed_valid
          | some drawn =>
              obtain ⟨encaps, ct1, raw⟩ := drawn
              have lengths := encapsulate1_lengths wf sampled
              have fits := encoderSized_new lengths.2.2 (by decide)
              have start := Encoder.nextChunk_invariant (Encoder.new_invariant ct1)
              simp only [Valid, Braid.invariant, Bool.and_eq_true, decide_eq_true_eq] at valid ⊢
              exact ⟨⟨⟨⟨⟨⟨valid.1.1.1, valid.1.1.2⟩, lengths.2.2⟩, start⟩,
                by rw [encoderSized_nextChunk]; exact fits⟩, valid.1.2⟩, valid.2⟩
  | keysSampled epoch auth kp hdrEnc =>
      simp only [stepSend, Valid, Braid.invariant, Bool.and_eq_true, decide_eq_true_eq,
        encoderSized_nextChunk] at valid ⊢
      exact ⟨⟨⟨valid.1.1.1, Encoder.nextChunk_invariant valid.1.1.2⟩, valid.1.2⟩, valid.2⟩
  | headerSent epoch auth kp ct1Dec ekEnc =>
      simp only [stepSend, Valid, Braid.invariant, Bool.and_eq_true, decide_eq_true_eq,
        encoderSized_nextChunk] at valid ⊢
      exact ⟨⟨⟨valid.1.1.1, Encoder.nextChunk_invariant valid.1.1.2⟩, valid.1.2⟩, valid.2⟩
  | ct1Received epoch auth kp ct1 ekEnc =>
      simp only [stepSend, Valid, Braid.invariant, Bool.and_eq_true, decide_eq_true_eq,
        encoderSized_nextChunk] at valid ⊢
      exact ⟨⟨⟨valid.1.1.1, Encoder.nextChunk_invariant valid.1.1.2⟩, valid.1.2⟩, valid.2⟩
  | ct1Sampled epoch auth header encaps ct1 ct1Enc ekDec =>
      simp only [stepSend, Valid, Braid.invariant, Bool.and_eq_true, decide_eq_true_eq,
        encoderSized_nextChunk] at valid ⊢
      exact ⟨⟨⟨⟨valid.1.1.1.1, Encoder.nextChunk_invariant valid.1.1.1.2⟩, valid.1.1.2⟩,
        valid.1.2⟩, valid.2⟩
  | ekReceivedCt1Sampled epoch auth encaps ct1 ekVector ct1Enc =>
      simp only [stepSend, Valid, Braid.invariant, Bool.and_eq_true, decide_eq_true_eq,
        encoderSized_nextChunk] at valid ⊢
      exact ⟨⟨valid.1.1, Encoder.nextChunk_invariant valid.1.2⟩, valid.2⟩
  | ct2Sampled epoch auth ct2Enc =>
      simp only [stepSend, Valid, Braid.invariant, Bool.and_eq_true, decide_eq_true_eq,
        encoderSized_nextChunk] at valid ⊢
      exact ⟨⟨valid.1.1, Encoder.nextChunk_invariant valid.1.2⟩, valid.2⟩
  | ekSentCt1Received | noHeaderReceived | ct1Acknowledged | failed => exact valid

/-! ## Receiving -/

theorem finishEncaps_invariant (wf : ikem.WellFormed) (sized : kdf.Sized) {epoch : UInt64}
    (positive : 1 ≤ epoch) (auth : Auth K) (encaps : EncapsState) (ct1 ekVector : Bytes) :
    Valid ikem (finishEncaps kdf ikem epoch auth encaps ct1 ekVector) := by
  unfold finishEncaps
  cases completed : encapsulate2 ikem encaps ekVector with
  | none => exact State.failed_valid
  | some ct2 =>
      have ct2_length : ct2.length = ct2Len := by
        unfold encapsulate2 at completed
        split at completed
        · simp at completed
        · split at completed
          · simp at completed
          · split at completed
            · simp at completed
            · rw [← Option.some.inj completed]
              exact wf.ct2_length _ _
      have framed : (ct2 ++ auth.macCt kdf epoch ct1 ct2).length = ct2Len + macLen := by
        simp [ct2_length, Auth.macCt, sized _, macLen]
      simp only [Valid, Braid.invariant, Bool.and_eq_true, decide_eq_true_eq]
      exact ⟨⟨positive, Encoder.new_invariant _⟩, encoderSized_new framed (by decide)⟩

theorem completeEpoch_invariant {epoch : UInt64} (auth : Auth K) (kp : IncrementalKeyPair)
    (ct1 framed : Bytes) : Valid ikem (completeEpoch kdf ikem epoch auth kp ct1 framed).2 := by
  unfold completeEpoch
  split
  · exact State.failed_valid
  · cases climbs : epoch.checkedAdd 1 with
    | none => exact State.failed_valid
    | some next =>
        simp only
        split
        · exact State.failed_valid
        · split
          · exact State.failed_valid
          · split
            · exact State.failed_valid
            · rw [UInt64.checkedAdd_eq_some] at climbs
              have positive : 1 ≤ next := by
                rw [UInt64.le_iff_toNat_le, climbs, UInt64.toNat_one]
                omega
              simp only [Valid, Braid.invariant, Bool.and_eq_true, decide_eq_true_eq]
              exact ⟨⟨positive, hdrDecoder_invariant⟩, decoderSized_new _⟩

theorem acceptHeader_invariant {epoch : UInt64} (positive : 1 ≤ epoch) (auth : Auth K)
    (framed : Bytes) : Valid ikem (acceptHeader kdf epoch auth framed) := by
  unfold acceptHeader
  split
  · exact State.failed_valid
  · rename_i long
    simp only
    split
    · exact State.failed_valid
    · have header_length : (framed.take headerLen).length = headerLen := by
        simp only [ne_eq, not_not] at long
        rw [List.length_take, long]
        simp
      simp only [Valid, Braid.invariant, Bool.and_eq_true, decide_eq_true_eq]
      exact ⟨⟨⟨positive, header_length⟩, by decide⟩, decoderSized_new _⟩

theorem Takes.invariant (wf : ikem.WellFormed) (sized : kdf.Sized) {msg : Msg} {st st' : State K}
    {out : Option (Output K)} (takes : Takes kdf ikem msg st out st') (valid : Valid ikem st) :
    Valid ikem st' := by
  cases takes with
  | ignored => exact valid
  | ekInvalid | lateInvalid | ceiling => exact State.failed_valid
  | ct2Complete => exact completeEpoch_invariant ..
  | headerProved arrived =>
      simp only [Valid, Braid.invariant, Bool.and_eq_true, decide_eq_true_eq,
        decoderSized_addChunk] at valid ⊢
      exact ⟨⟨⟨⟨⟨valid.1.1.1, Decoder.addChunk_invariant (by decide) _⟩, decoderSized_new _⟩,
        Encoder.new_invariant _⟩, encoderSized_new (wf.ekVector_length _) (by decide)⟩, valid.2⟩
  | ct1Chunk =>
      simp only [Valid, Braid.invariant, Bool.and_eq_true, decide_eq_true_eq,
        decoderSized_addChunk] at valid ⊢
      obtain ⟨⟨⟨⟨⟨positive, held⟩, fits⟩, stream⟩, streamFits⟩, pair⟩ := valid
      exact ⟨⟨⟨⟨⟨positive, Decoder.addChunk_invariant held _⟩, fits⟩, stream⟩, streamFits⟩, pair⟩
  | ct1Complete arrived yields =>
      simp only [Valid, Braid.invariant, Bool.and_eq_true, decide_eq_true_eq] at valid ⊢
      obtain ⟨⟨⟨⟨⟨positive, held⟩, fits⟩, stream⟩, streamFits⟩, pair⟩ := valid
      have length := length_of_message (Decoder.addChunk_invariant held _)
        (by rw [decoderSized_addChunk]; exact fits) yields
      exact ⟨⟨⟨⟨positive, length⟩, stream⟩, streamFits⟩, pair⟩
  | ekProved =>
      simp only [Valid, Braid.invariant, Bool.and_eq_true, decide_eq_true_eq,
        decoderSized_addChunk] at valid ⊢
      exact ⟨⟨⟨⟨valid.1.1.1.1, valid.1.1.1.2⟩, Decoder.addChunk_invariant (by decide) _⟩,
        decoderSized_new _⟩, valid.2⟩
  | ct2Chunk =>
      simp only [Valid, Braid.invariant, Bool.and_eq_true, decide_eq_true_eq,
        decoderSized_addChunk] at valid ⊢
      exact ⟨⟨⟨valid.1.1.1, Decoder.addChunk_invariant valid.1.1.2 _⟩, valid.1.2⟩, valid.2⟩
  | headerChunk =>
      simp only [Valid, Braid.invariant, Bool.and_eq_true, decide_eq_true_eq,
        decoderSized_addChunk] at valid ⊢
      exact ⟨⟨valid.1.1, Decoder.addChunk_invariant valid.1.2 _⟩, valid.2⟩
  | headerComplete =>
      simp only [Valid, Braid.invariant, Bool.and_eq_true, decide_eq_true_eq] at valid
      exact acceptHeader_invariant valid.1.1 _ _
  | ekChunk =>
      simp only [Valid, Braid.invariant, Bool.and_eq_true, decide_eq_true_eq,
        decoderSized_addChunk] at valid ⊢
      obtain ⟨⟨rest, held⟩, fits⟩ := valid
      exact ⟨⟨rest, Decoder.addChunk_invariant held _⟩, fits⟩
  | ekChunkAcked =>
      simp only [Valid, Braid.invariant, Bool.and_eq_true, decide_eq_true_eq,
        decoderSized_addChunk] at valid ⊢
      obtain ⟨⟨⟨⟨lengths, -⟩, -⟩, held⟩, fits⟩ := valid
      exact ⟨⟨lengths, Decoder.addChunk_invariant held _⟩, fits⟩
  | ekCompleteAcked =>
      simp only [Valid, Braid.invariant, Bool.and_eq_true, decide_eq_true_eq] at valid
      exact finishEncaps_invariant wf sized valid.1.1.1.1.1.1 ..
  | ekComplete arrived yields =>
      simp only [Valid, Braid.invariant, Bool.and_eq_true, decide_eq_true_eq] at valid ⊢
      obtain ⟨⟨⟨⟨⟨⟨positive, -⟩, ctLength⟩, stream⟩, streamFits⟩, held⟩, fits⟩ := valid
      have length := length_of_message (Decoder.addChunk_invariant held _)
        (by rw [decoderSized_addChunk]; exact fits) yields
      exact ⟨⟨⟨⟨positive, ctLength⟩, length⟩, stream⟩, streamFits⟩
  | acknowledged =>
      simp only [Valid, Braid.invariant, Bool.and_eq_true, decide_eq_true_eq] at valid
      exact finishEncaps_invariant wf sized valid.1.1.1.1 ..
  | lateChunk =>
      simp only [Valid, Braid.invariant, Bool.and_eq_true, decide_eq_true_eq,
        decoderSized_addChunk] at valid ⊢
      obtain ⟨⟨rest, held⟩, fits⟩ := valid
      exact ⟨⟨rest, Decoder.addChunk_invariant held _⟩, fits⟩
  | lateComplete =>
      simp only [Valid, Braid.invariant, Bool.and_eq_true, decide_eq_true_eq] at valid
      exact finishEncaps_invariant wf sized valid.1.1.1.1 ..
  | swapped climbs =>
      have positive : 1 ≤ msg.epoch := by
        rename_i theirs
        rw [UInt64.le_iff_toNat_le, theirs, climbs, UInt64.toNat_one]
        omega
      rename_i theirs
      subst theirs
      simpa [Valid, Braid.invariant] using positive

/-- **Receiving keeps the invariant**, whatever the message. -/
theorem stepReceive_invariant (wf : ikem.WellFormed) (sized : kdf.Sized) {st : State K}
    (valid : Valid ikem st) (msg : Msg) : Valid ikem (stepReceive kdf ikem msg st).2 :=
  (stepReceive_takes kdf ikem msg st).invariant wf sized valid

/-! ## Epoch keys emitted -/

/-- How many epoch keys a party in this state has emitted: the header's sender
has those of the epochs before, and its peer this epoch's too once it has
encapsulated. -/
def State.emitted : State K → Nat
  | .keysUnsampled e .. | .keysSampled e .. | .headerSent e .. | .ct1Received e ..
  | .ekSentCt1Received e .. | .noHeaderReceived e .. | .headerReceived e .. => e.toNat - 1
  | .ct1Sampled e .. | .ekReceivedCt1Sampled e .. | .ct1Acknowledged e .. | .ct2Sampled e .. =>
      e.toNat
  | .failed => 0

/-- What a transition emits: nothing, or the key of the next epoch. -/
def EmitsNext (before after : State K) (out : Option (Output K)) : Prop :=
  (out = none ∧ after.emitted = before.emitted) ∨
    ∃ o, out = some o ∧ o.keyEpoch.toNat = before.emitted + 1 ∧ after.emitted = before.emitted + 1

/-- The keys emitted are those up to the epoch before the state's, and the
state's own in the second half of the encapsulating side. -/
theorem State.emitted_bounds {st : State K} (alive : st ≠ failed) :
    st.epoch.toNat - 1 ≤ st.emitted ∧ st.emitted ≤ st.epoch.toNat := by
  cases st <;> simp_all [emitted, epoch]

/-- **A send that does not fail keeps the epoch and emits the next key or none.** -/
theorem stepSend_emitted {st : State K} (positive : 1 ≤ st.epoch) (rng : Rng)
    (alive : (stepSend kdf ikem rng st).2.2.1 ≠ .failed) :
    (stepSend kdf ikem rng st).2.2.1.epoch = st.epoch ∧
      EmitsNext st (stepSend kdf ikem rng st).2.2.1 (stepSend kdf ikem rng st).2.1 := by
  cases st with
  | failed => exact absurd rfl alive
  | keysUnsampled epoch auth =>
      simp only [stepSend] at alive ⊢
      cases generated : IncrementalKeyPair.generate ikem rng with
      | mk result rng' =>
          rw [generated] at alive
          cases result with
          | none => exact absurd rfl alive
          | some kp => exact ⟨rfl, .inl ⟨rfl, rfl⟩⟩
  | headerReceived epoch auth header ekDec =>
      simp only [stepSend] at alive ⊢
      cases sampled : encapsulate1 ikem header rng with
      | mk result rng' =>
          rw [sampled] at alive
          cases result with
          | none => exact absurd rfl alive
          | some drawn =>
              have one : 1 ≤ epoch.toNat := UInt64.le_iff_toNat_le.1 positive
              refine ⟨rfl, .inr ⟨_, rfl, ?_, ?_⟩⟩
              · simp only [State.emitted]
                omega
              · simp only [State.emitted]
                omega
  | _ => exact ⟨rfl, .inl ⟨rfl, rfl⟩⟩

theorem finishEncaps_emitted {epoch : UInt64} {auth : Auth K} {encaps : EncapsState}
    {ct1 ekVector : Bytes} (alive : finishEncaps kdf ikem epoch auth encaps ct1 ekVector ≠ .failed) :
    (finishEncaps kdf ikem epoch auth encaps ct1 ekVector).emitted = epoch.toNat ∧
      (finishEncaps kdf ikem epoch auth encaps ct1 ekVector).epoch = epoch := by
  obtain ⟨ct2, -, same⟩ := finishEncaps_alive alive
  rw [same]
  exact ⟨rfl, rfl⟩

theorem Takes.emitted {msg : Msg} {st st' : State K} {out : Option (Output K)}
    (takes : Takes kdf ikem msg st out st') (positive : 1 ≤ st.epoch) (alive : st' ≠ .failed) :
    st.epoch ≤ st'.epoch ∧ EmitsNext st st' out := by
  cases takes with
  | ekInvalid | lateInvalid | ceiling => exact absurd rfl alive
  | @ct2Complete epoch =>
      obtain ⟨next, raw, climbs, -, -, same⟩ := completeEpoch_alive alive
      have one : 1 ≤ epoch.toNat := UInt64.le_iff_toNat_le.1 positive
      rw [same]
      refine ⟨?_, .inr ⟨_, rfl, ?_, ?_⟩⟩
      · simp only [State.epoch, UInt64.le_iff_toNat_le]
        omega
      · simp only [State.emitted]
        omega
      · simp only [State.emitted]
        omega
  | headerComplete =>
      rw [(acceptHeader_alive alive).2]
      exact ⟨UInt64.le_refl _, .inl ⟨rfl, rfl⟩⟩
  | ekCompleteAcked | acknowledged | lateComplete =>
      have finished := finishEncaps_emitted alive
      exact ⟨by rw [finished.2]; exact UInt64.le_refl _, .inl ⟨rfl, finished.1⟩⟩
  | swapped climbs =>
      refine ⟨?_, .inl ⟨rfl, ?_⟩⟩
      · simp only [State.epoch, UInt64.le_iff_toNat_le]
        omega
      · simp only [State.emitted]
        omega
  | _ => exact ⟨UInt64.le_refl _, .inl ⟨rfl, rfl⟩⟩

/-- **A receive that does not fail emits the next key or none**, whatever the
message, and never goes back an epoch. -/
theorem stepReceive_emitted {st : State K} (positive : 1 ≤ st.epoch) (msg : Msg)
    (alive : (stepReceive kdf ikem msg st).2 ≠ .failed) :
    st.epoch ≤ (stepReceive kdf ikem msg st).2.epoch ∧
      EmitsNext st (stepReceive kdf ikem msg st).2 (stepReceive kdf ikem msg st).1 :=
  (stepReceive_takes kdf ikem msg st).emitted positive alive

theorem completeEpoch_output {epoch : UInt64} {auth : Auth K} {kp : IncrementalKeyPair}
    {ct1 framed : Bytes} {o : Output K}
    (emits : (completeEpoch kdf ikem epoch auth kp ct1 framed).1 = some o) :
    (completeEpoch kdf ikem epoch auth kp ct1 framed).2 ≠ .failed := by
  unfold completeEpoch at emits ⊢
  split at emits
  · simp at emits
  · rename_i long
    rw [if_neg long]
    split at emits
    · simp at emits
    · split at emits
      · simp at emits
      · rename_i below
        rw [if_neg below]
        simp only at emits ⊢
        split at emits
        · simp at emits
        · split at emits
          · simp at emits
          · rename_i verified
            rw [if_neg verified]
            simp

/-- Only the sender of a header, finishing its epoch, emits on a receive. -/
theorem stepReceive_output {st : State K} {msg : Msg} {o : Output K}
    (emits : (stepReceive kdf ikem msg st).1 = some o) :
    (∃ epoch auth kp ct1 ct2Dec, st = .ekSentCt1Received epoch auth kp ct1 ct2Dec) ∧
      (stepReceive kdf ikem msg st).2 ≠ .failed := by
  have takes := stepReceive_takes kdf ikem msg st
  generalize stepReceive kdf ikem msg st = result at takes emits
  obtain ⟨out, st'⟩ := result
  simp only at takes emits ⊢
  cases takes with
  | ct2Complete => exact ⟨⟨_, _, _, _, _, rfl⟩, completeEpoch_output emits⟩
  | _ => exact absurd emits (by simp)

/-! ## The role -/

/-- Which party a state belongs to, while it is live. -/
def State.isInitiator (st : State K) : Option Bool := Braid.isInitiator ⟨st⟩

/-- The header's sender is the initiator in odd epochs, and the sides swap with
each epoch, so its peer one epoch on is the initiator too. -/
theorem odd_next {epoch next : UInt64} (climbs : next.toNat = epoch.toNat + 1) :
    (next % 2 == 1) = !(epoch % 2 == 1) := by
  have parity : ∀ e : UInt64, (e % 2 == 1) = decide (e.toNat % 2 = 1) := fun e => by
    rw [Bool.eq_iff_iff, beq_iff_eq, ← UInt64.toNat_inj, decide_eq_true_eq]
    rfl
  rw [parity, parity, climbs]
  rcases Nat.mod_two_eq_zero_or_one epoch.toNat with even | odd
  · have : (epoch.toNat + 1) % 2 = 1 := by omega
    simp [even, this]
  · have : (epoch.toNat + 1) % 2 = 0 := by omega
    simp [odd, this]

/-- **A send that does not fail keeps the role.** -/
theorem stepSend_isInitiator {st : State K} (rng : Rng)
    (alive : (stepSend kdf ikem rng st).2.2.1 ≠ .failed) :
    (stepSend kdf ikem rng st).2.2.1.isInitiator = st.isInitiator := by
  cases st with
  | keysUnsampled epoch auth =>
      simp only [stepSend] at alive ⊢
      cases generated : IncrementalKeyPair.generate ikem rng with
      | mk result rng' =>
          rw [generated] at alive
          cases result with
          | none => exact absurd rfl alive
          | some kp => rfl
  | headerReceived epoch auth header ekDec =>
      simp only [stepSend] at alive ⊢
      cases sampled : encapsulate1 ikem header rng with
      | mk result rng' =>
          rw [sampled] at alive
          cases result with
          | none => exact absurd rfl alive
          | some drawn => rfl
  | _ => rfl

/-- **A receive that does not fail keeps the role.** -/
theorem Takes.isInitiator {msg : Msg} {st st' : State K} {out : Option (Output K)}
    (takes : Takes kdf ikem msg st out st') (alive : st' ≠ .failed) :
    st'.isInitiator = st.isInitiator := by
  cases takes with
  | ekInvalid | lateInvalid | ceiling => exact absurd rfl alive
  | ct2Complete =>
      obtain ⟨next, raw, climbs, -, -, same⟩ := completeEpoch_alive alive
      rw [same]
      show some (!(next % 2 == 1)) = some _
      rw [odd_next climbs, Bool.not_not]
      rfl
  | headerComplete =>
      rw [(acceptHeader_alive alive).2]
      rfl
  | ekCompleteAcked | acknowledged | lateComplete =>
      obtain ⟨ct2, -, same⟩ := finishEncaps_alive alive
      rw [same]
      rfl
  | @swapped epoch next _ _ climbs =>
      show some (next % 2 == 1) = some (!(epoch % 2 == 1))
      rw [odd_next climbs]
  | _ => rfl

end Tacenta.Braid
