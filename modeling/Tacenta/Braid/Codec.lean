/-
# Tacenta.Braid.Codec -- an agreement at rest

`Braid::to_bytes` and `Braid::from_bytes`: a version byte, the state's tag, and
the state's fields in order, behind their lengths where their width is not
fixed.  The reader takes framing from the bytes and everything else from
`Braid.invariant`.  `Stored` is what the framing itself asks, every transition
keeps it, and `fromBytes_toBytes` restores every state that satisfies both.
-/
import Tacenta.Braid.Invariant
import Tacenta.Erasure.Codec

set_option autoImplicit false
set_option linter.dupNamespace false

namespace Tacenta.Braid

open Tacenta.Erasure (Chunk Encoder Decoder FieldReader)
open Tacenta.Kem

def stateVersion : UInt8 := 0x01

inductive BraidDecodeError where
  | unknownVersion
  | tooShort
  | malformed
  deriving DecidableEq, Repr

/-! ## Writing -/

def Auth.toBytes (a : Auth Secret) : Bytes := a.rootKey.toList ++ a.macKey.toList

/-- What every live state starts with. -/
def encodeHead (epoch : UInt64) (auth : Auth Secret) : Bytes := be64 epoch ++ auth.toBytes

/-- A state's fields, after its tag. -/
def State.fields : State Secret → Bytes
  | .keysUnsampled epoch auth => encodeHead epoch auth
  | .keysSampled epoch auth kp hdrEnc =>
      encodeHead epoch auth ++ (lenPrefix kp.raw ++ lenPrefix hdrEnc.toBytes)
  | .headerSent epoch auth kp ct1Dec ekEnc =>
      encodeHead epoch auth ++ (lenPrefix kp.raw ++ (lenPrefix ct1Dec.toBytes ++
        lenPrefix ekEnc.toBytes))
  | .ct1Received epoch auth kp ct1 ekEnc =>
      encodeHead epoch auth ++ (lenPrefix kp.raw ++ (lenPrefix ct1 ++ lenPrefix ekEnc.toBytes))
  | .ekSentCt1Received epoch auth kp ct1 ct2Dec =>
      encodeHead epoch auth ++ (lenPrefix kp.raw ++ (lenPrefix ct1 ++ lenPrefix ct2Dec.toBytes))
  | .noHeaderReceived epoch auth hdrDec => encodeHead epoch auth ++ lenPrefix hdrDec.toBytes
  | .headerReceived epoch auth header ekDec =>
      encodeHead epoch auth ++ (lenPrefix header ++ lenPrefix ekDec.toBytes)
  | .ct1Sampled epoch auth header encaps ct1 ct1Enc ekDec =>
      encodeHead epoch auth ++ (lenPrefix header ++ (lenPrefix encaps.raw ++ (lenPrefix ct1 ++
        (lenPrefix ct1Enc.toBytes ++ lenPrefix ekDec.toBytes))))
  | .ekReceivedCt1Sampled epoch auth encaps ct1 ekVector ct1Enc =>
      encodeHead epoch auth ++ (lenPrefix encaps.raw ++ (lenPrefix ct1 ++ (lenPrefix ekVector ++
        lenPrefix ct1Enc.toBytes)))
  | .ct1Acknowledged epoch auth header encaps ct1 ekDec =>
      encodeHead epoch auth ++ (lenPrefix header ++ (lenPrefix encaps.raw ++ (lenPrefix ct1 ++
        lenPrefix ekDec.toBytes)))
  | .ct2Sampled epoch auth ct2Enc => encodeHead epoch auth ++ lenPrefix ct2Enc.toBytes
  | .failed => []

def Braid.toBytes (b : Braid Secret) : Bytes := [stateVersion, b.stateTag] ++ b.state.fields

/-! ## Reading -/

/-- The reserved epoch is refused. -/
def readEpoch : FieldReader UInt64 := do
  let e ← Reader.u64 ()
  Reader.require (e != UInt64.maxValue) ()
  pure e

def readAuth : FieldReader (Auth Secret) := do
  let rootKey ← Reader.arr () 32
  let macKey ← Reader.arr () 32
  pure { rootKey, macKey }

/-- A length-prefixed field with an optional decoder. -/
def readField {α : Type} (decode : Bytes → Option α) : FieldReader α :=
  Reader.nested () fun field =>
    match decode field with
    | some a => .ok a
    | none => .error ()

def readBytes : FieldReader Bytes := Reader.lenPrefixed ()

def readKeyPair : FieldReader IncrementalKeyPair := readField IncrementalKeyPair.fromBytes
def readEncaps : FieldReader EncapsState := readField EncapsState.fromBytes
def readEncoder : FieldReader Encoder := readField Encoder.fromBytes
def readDecoder : FieldReader Decoder := readField Decoder.fromBytes

/-- `decode_state`: the fields the tag calls for. -/
def decodeState (tag : UInt8) : FieldReader (State Secret) :=
  match tag.toNat with
  | 0 => do
      let epoch ← readEpoch
      let auth ← readAuth
      pure (.keysUnsampled epoch auth)
  | 1 => do
      let epoch ← readEpoch
      let auth ← readAuth
      let kp ← readKeyPair
      let hdrEnc ← readEncoder
      pure (.keysSampled epoch auth kp hdrEnc)
  | 2 => do
      let epoch ← readEpoch
      let auth ← readAuth
      let kp ← readKeyPair
      let ct1Dec ← readDecoder
      let ekEnc ← readEncoder
      pure (.headerSent epoch auth kp ct1Dec ekEnc)
  | 3 => do
      let epoch ← readEpoch
      let auth ← readAuth
      let kp ← readKeyPair
      let ct1 ← readBytes
      let ekEnc ← readEncoder
      pure (.ct1Received epoch auth kp ct1 ekEnc)
  | 4 => do
      let epoch ← readEpoch
      let auth ← readAuth
      let kp ← readKeyPair
      let ct1 ← readBytes
      let ct2Dec ← readDecoder
      pure (.ekSentCt1Received epoch auth kp ct1 ct2Dec)
  | 5 => do
      let epoch ← readEpoch
      let auth ← readAuth
      let hdrDec ← readDecoder
      pure (.noHeaderReceived epoch auth hdrDec)
  | 6 => do
      let epoch ← readEpoch
      let auth ← readAuth
      let header ← readBytes
      let ekDec ← readDecoder
      pure (.headerReceived epoch auth header ekDec)
  | 7 => do
      let epoch ← readEpoch
      let auth ← readAuth
      let header ← readBytes
      let encaps ← readEncaps
      let ct1 ← readBytes
      let ct1Enc ← readEncoder
      let ekDec ← readDecoder
      pure (.ct1Sampled epoch auth header encaps ct1 ct1Enc ekDec)
  | 8 => do
      let epoch ← readEpoch
      let auth ← readAuth
      let encaps ← readEncaps
      let ct1 ← readBytes
      let ekVector ← readBytes
      let ct1Enc ← readEncoder
      pure (.ekReceivedCt1Sampled epoch auth encaps ct1 ekVector ct1Enc)
  | 9 => do
      let epoch ← readEpoch
      let auth ← readAuth
      let header ← readBytes
      let encaps ← readEncaps
      let ct1 ← readBytes
      let ekDec ← readDecoder
      pure (.ct1Acknowledged epoch auth header encaps ct1 ekDec)
  | 10 => do
      let epoch ← readEpoch
      let auth ← readAuth
      let ct2Enc ← readEncoder
      pure (.ct2Sampled epoch auth ct2Enc)
  | 11 => pure .failed
  | _ => Reader.refuse ()

/-- A state with nothing after it. -/
def decodeWhole (tag : UInt8) : FieldReader (State Secret) := do
  let state ← decodeState tag
  Reader.atEnd ()
  pure state

open BraidDecodeError

def Braid.fromBytes (ikem : IncKem Secret) (bytes : Bytes) :
    Except BraidDecodeError (Braid Secret) :=
  match bytes with
  | version :: tag :: rest =>
      if version ≠ stateVersion then .error unknownVersion
      else
        match (decodeWhole tag).value rest with
        | .error _ => .error malformed
        | .ok state =>
            if !Braid.invariant ikem ⟨state⟩ then .error malformed else .ok ⟨state⟩
  | _ => .error tooShort

/-! ## What the framing asks of a state -/

namespace State

variable {K : Type}

def keyPair : State K → Option IncrementalKeyPair
  | keysSampled _ _ kp _ | headerSent _ _ kp _ _ | ct1Received _ _ kp _ _
  | ekSentCt1Received _ _ kp _ _ => some kp
  | _ => none

def encapsState : State K → Option EncapsState
  | ct1Sampled _ _ _ encaps _ _ _ | ekReceivedCt1Sampled _ _ encaps _ _ _
  | ct1Acknowledged _ _ _ encaps _ _ => some encaps
  | _ => none

/-- An epoch that is not the reserved one, and the KEM's own values at the
lengths the KEM gives them. -/
structure Stored (st : State K) : Prop where
  epoch : st.epoch ≠ UInt64.maxValue
  keyPair : ∀ kp, st.keyPair = some kp → kp.raw.length = keyPairLen
  encaps : ∀ e, st.encapsState = some e → e.raw.length = encapsStateLen

theorem failed_stored : Stored (failed : State K) :=
  ⟨(by decide : (0 : UInt64) ≠ UInt64.maxValue), fun _ h => by simp [State.keyPair] at h,
    fun _ h => by simp [State.encapsState] at h⟩

end State

open State (Stored Valid)

section Steps

variable {K : Type} {kdf : Kdf K} {ikem : IncKem K}

theorem generate_length (wf : ikem.WellFormed) {rng rng' : Rng} {kp : IncrementalKeyPair}
    (generated : IncrementalKeyPair.generate ikem rng = (some kp, rng')) :
    kp.raw.length = keyPairLen := by
  simp only [IncrementalKeyPair.generate, Prod.mk.injEq, Option.map_eq_some_iff] at generated
  obtain ⟨⟨raw, sampled, rfl⟩, -⟩ := generated
  exact wf.keyPair_length _ raw sampled

/-- **Sending keeps a state storable.** -/
theorem stepSend_stored (wf : ikem.WellFormed) {st : State K} (stored : Stored st) (rng : Rng) :
    Stored (stepSend kdf ikem rng st).2.2.1 := by
  cases st with
  | keysUnsampled epoch auth =>
      simp only [stepSend]
      cases generated : IncrementalKeyPair.generate ikem rng with
      | mk result rng' =>
          cases result with
          | none => exact State.failed_stored
          | some kp =>
              refine ⟨stored.epoch, fun kp' h => ?_, fun _ h => by simp [State.encapsState] at h⟩
              rw [← Option.some.inj h]
              exact generate_length wf generated
  | headerReceived epoch auth header ekDec =>
      simp only [stepSend]
      cases sampled : encapsulate1 ikem header rng with
      | mk result rng' =>
          cases result with
          | none => exact State.failed_stored
          | some drawn =>
              obtain ⟨encaps, ct1, raw⟩ := drawn
              refine ⟨stored.epoch, fun _ h => by simp [State.keyPair] at h, fun e h => ?_⟩
              rw [← Option.some.inj h]
              exact (encapsulate1_lengths wf sampled).2.1
  | _ => exact ⟨stored.epoch, stored.keyPair, stored.encaps⟩

theorem finishEncaps_stored {epoch : UInt64} (open_ : epoch ≠ UInt64.maxValue) (auth : Auth K)
    (encaps : EncapsState) (ct1 ekVector : Bytes) :
    Stored (finishEncaps kdf ikem epoch auth encaps ct1 ekVector) := by
  unfold finishEncaps
  split
  · exact State.failed_stored
  · exact ⟨open_, fun _ h => by simp [State.keyPair] at h, fun _ h => by simp [State.encapsState] at h⟩

theorem completeEpoch_stored (epoch : UInt64) (auth : Auth K) (kp : IncrementalKeyPair)
    (ct1 framed : Bytes) : Stored (completeEpoch kdf ikem epoch auth kp ct1 framed).2 := by
  unfold completeEpoch
  split
  · exact State.failed_stored
  · split
    · exact State.failed_stored
    · split
      · exact State.failed_stored
      · rename_i open_
        simp only
        split
        · exact State.failed_stored
        · split
          · exact State.failed_stored
          · exact ⟨open_, fun _ h => by simp [State.keyPair] at h,
              fun _ h => by simp [State.encapsState] at h⟩

theorem acceptHeader_stored {epoch : UInt64} (open_ : epoch ≠ UInt64.maxValue) (auth : Auth K)
    (framed : Bytes) : Stored (acceptHeader kdf epoch auth framed) := by
  unfold acceptHeader
  split
  · exact State.failed_stored
  · simp only
    split
    · exact State.failed_stored
    · exact ⟨open_, fun _ h => by simp [State.keyPair] at h,
        fun _ h => by simp [State.encapsState] at h⟩

/-- A state with the epoch and the KEM values of a stored one is stored. -/
theorem State.Stored.of_same {st st' : State K} (stored : Stored st) (epoch : st'.epoch = st.epoch)
    (pair : ∀ kp, st'.keyPair = some kp → st.keyPair = some kp)
    (encaps_ : ∀ e, st'.encapsState = some e → st.encapsState = some e) : Stored st' :=
  ⟨epoch ▸ stored.epoch, fun kp h => stored.keyPair kp (pair kp h),
    fun e h => stored.encaps e (encaps_ e h)⟩

theorem Takes.stored {msg : Msg} {st st' : State K} {out : Option (Output K)}
    (takes : Takes kdf ikem msg st out st') (stored : Stored st) : Stored st' := by
  cases takes with
  | ignored => exact stored
  | ekInvalid | lateInvalid | ceiling => exact State.failed_stored
  | ct2Complete => exact completeEpoch_stored ..
  | headerComplete => exact acceptHeader_stored stored.epoch ..
  | ekCompleteAcked | acknowledged | lateComplete => exact finishEncaps_stored stored.epoch ..
  | swapped climbs below =>
      exact ⟨below, fun _ h => by simp [State.keyPair] at h,
        fun _ h => by simp [State.encapsState] at h⟩
  | _ => exact stored.of_same rfl (fun _ h => h) (fun _ h => h)

/-- **Receiving keeps a state storable.** -/
theorem stepReceive_stored {st : State K} (stored : Stored st) (msg : Msg) :
    Stored (stepReceive kdf ikem msg st).2 :=
  (stepReceive_takes kdf ikem msg st).stored stored

end Steps

/-! ## Round trip -/

theorem reads_epoch {epoch : UInt64} (open_ : epoch ≠ UInt64.maxValue) :
    Reads readEpoch (be64 epoch) epoch :=
  .bind_last (Reads.u64 _ epoch) (.bind_nil (.require _ (by simpa using open_)) (.of_pure _))

theorem reads_auth (auth : Auth Secret) : Reads readAuth auth.toBytes auth :=
  (Reads.arr _ auth.rootKey).bind (.bind_last (Reads.arr _ auth.macKey) (.of_pure _))

/-- The two readers every live state starts with, and what follows them. -/
theorem reads_head {α : Type} {epoch : UInt64} (open_ : epoch ≠ UInt64.maxValue)
    {auth : Auth Secret} {next : UInt64 → Auth Secret → FieldReader α} {y : Bytes} {a : α}
    (rest : Reads (next epoch auth) y a) :
    Reads (do let e ← readEpoch; let k ← readAuth; next e k) (encodeHead epoch auth ++ y) a := by
  rw [encodeHead, List.append_assoc]
  exact (reads_epoch open_).bind ((reads_auth auth).bind rest)

theorem reads_field {α : Type} {decode : Bytes → Option α} {l : Bytes} {a : α}
    (small : l.length < 2 ^ 32) (decodes : decode l = some a) :
    Reads (readField decode) (lenPrefix l) a :=
  Reads.nested _ small (by rw [decodes])

theorem reads_bytes {l : Bytes} {n : Nat} (length : l.length = n) (small : n < 2 ^ 32) :
    Reads readBytes (lenPrefix l) l :=
  Reads.lenPrefixed _ (length ▸ small)

theorem reads_keyPair {kp : IncrementalKeyPair} (length : kp.raw.length = keyPairLen) :
    Reads readKeyPair (lenPrefix kp.raw) kp :=
  reads_field (by rw [length]; decide) (by simp [IncrementalKeyPair.fromBytes, length])

theorem reads_encaps {encaps : EncapsState} (length : encaps.raw.length = encapsStateLen) :
    Reads readEncaps (lenPrefix encaps.raw) encaps :=
  reads_field (by rw [length]; decide) (by simp [EncapsState.fromBytes, length])

/-- A coder's own invariant bounds its encoding. -/
theorem length_encoder {enc : Encoder} (inv : enc.invariant = true) :
    enc.toBytes.length < 2 ^ 22 := by
  simp only [Encoder.invariant, Bool.and_eq_true, decide_eq_true_eq] at inv
  have small : enc.chunks.length ≤ 65536 := inv.1
  rw [Encoder.length_toBytes, Encoder.needed]
  omega

theorem length_decoder {dec : Decoder} (inv : dec.invariant = true) :
    dec.toBytes.length < 2 ^ 22 := by
  simp only [Decoder.invariant, Bool.and_eq_true, decide_eq_true_eq] at inv
  have small : dec.needed ≤ 65536 := inv.1.1.2
  have room := inv.1.2
  rw [Decoder.length_toBytes]
  omega

theorem reads_encoder {enc : Encoder} (inv : enc.invariant = true) :
    Reads readEncoder (lenPrefix enc.toBytes) enc :=
  reads_field (by have := length_encoder inv; omega) (Encoder.fromBytes_toBytes inv)

theorem reads_decoder {dec : Decoder} (inv : dec.invariant = true) :
    Reads readDecoder (lenPrefix dec.toBytes) dec :=
  reads_field (by have := length_decoder inv; omega) (Decoder.fromBytes_toBytes inv)

variable {ikem : IncKem Secret}

theorem reads_state {st : State Secret} (valid : Valid ikem st) (stored : Stored st) :
    Reads (decodeState st.stateTag) st.fields st := by
  obtain ⟨open_, pair, encaps_⟩ := stored
  cases st with
  | failed => exact .of_pure _
  | keysUnsampled epoch auth =>
      simp only [decodeState, State.stateTag, UInt8.reduceToNat]
      exact .bind (reads_epoch open_) (.bind_last (reads_auth auth) (.of_pure _))
  | keysSampled epoch auth kp hdrEnc =>
      simp only [Valid, Braid.invariant, Bool.and_eq_true, decide_eq_true_eq] at valid
      obtain ⟨⟨⟨-, enc⟩, -⟩, -⟩ := valid
      simp only [decodeState, State.stateTag, UInt8.reduceToNat]
      exact reads_head open_ (.bind (reads_keyPair (pair kp rfl))
        (.bind_last (reads_encoder enc) (.of_pure _)))
  | headerSent epoch auth kp ct1Dec ekEnc =>
      simp only [Valid, Braid.invariant, Bool.and_eq_true, decide_eq_true_eq] at valid
      obtain ⟨⟨⟨⟨⟨-, dec⟩, -⟩, enc⟩, -⟩, -⟩ := valid
      simp only [decodeState, State.stateTag, UInt8.reduceToNat]
      exact reads_head open_ (.bind (reads_keyPair (pair kp rfl)) (.bind (reads_decoder dec)
        (.bind_last (reads_encoder enc) (.of_pure _))))
  | ct1Received epoch auth kp ct1 ekEnc =>
      simp only [Valid, Braid.invariant, Bool.and_eq_true, decide_eq_true_eq] at valid
      obtain ⟨⟨⟨⟨-, ct1_length⟩, enc⟩, -⟩, -⟩ := valid
      simp only [decodeState, State.stateTag, UInt8.reduceToNat]
      exact reads_head open_ (.bind (reads_keyPair (pair kp rfl))
        (.bind (reads_bytes ct1_length (by decide)) (.bind_last (reads_encoder enc) (.of_pure _))))
  | ekSentCt1Received epoch auth kp ct1 ct2Dec =>
      simp only [Valid, Braid.invariant, Bool.and_eq_true, decide_eq_true_eq] at valid
      obtain ⟨⟨⟨⟨-, ct1_length⟩, dec⟩, -⟩, -⟩ := valid
      simp only [decodeState, State.stateTag, UInt8.reduceToNat]
      exact reads_head open_ (.bind (reads_keyPair (pair kp rfl))
        (.bind (reads_bytes ct1_length (by decide)) (.bind_last (reads_decoder dec) (.of_pure _))))
  | noHeaderReceived epoch auth hdrDec =>
      simp only [Valid, Braid.invariant, Bool.and_eq_true, decide_eq_true_eq] at valid
      simp only [decodeState, State.stateTag, UInt8.reduceToNat]
      exact reads_head open_ (.bind_last (reads_decoder valid.1.2) (.of_pure _))
  | headerReceived epoch auth header ekDec =>
      simp only [Valid, Braid.invariant, Bool.and_eq_true, decide_eq_true_eq] at valid
      simp only [decodeState, State.stateTag, UInt8.reduceToNat]
      exact reads_head open_ (.bind (reads_bytes valid.1.1.2 (by decide))
        (.bind_last (reads_decoder valid.1.2) (.of_pure _)))
  | ct1Sampled epoch auth header encaps ct1 ct1Enc ekDec =>
      simp only [Valid, Braid.invariant, Bool.and_eq_true, decide_eq_true_eq] at valid
      obtain ⟨⟨⟨⟨⟨⟨-, header_length⟩, ct1_length⟩, enc⟩, -⟩, dec⟩, -⟩ := valid
      simp only [decodeState, State.stateTag, UInt8.reduceToNat]
      exact reads_head open_ (.bind (reads_bytes header_length (by decide))
        (.bind (reads_encaps (encaps_ encaps rfl)) (.bind (reads_bytes ct1_length (by decide))
          (.bind (reads_encoder enc) (.bind_last (reads_decoder dec) (.of_pure _))))))
  | ekReceivedCt1Sampled epoch auth encaps ct1 ekVector ct1Enc =>
      simp only [Valid, Braid.invariant, Bool.and_eq_true, decide_eq_true_eq] at valid
      obtain ⟨⟨⟨⟨-, ct1_length⟩, ek_length⟩, enc⟩, -⟩ := valid
      simp only [decodeState, State.stateTag, UInt8.reduceToNat]
      exact reads_head open_ (.bind (reads_encaps (encaps_ encaps rfl))
        (.bind (reads_bytes ct1_length (by decide)) (.bind (reads_bytes ek_length (by decide))
          (.bind_last (reads_encoder enc) (.of_pure _)))))
  | ct1Acknowledged epoch auth header encaps ct1 ekDec =>
      simp only [Valid, Braid.invariant, Bool.and_eq_true, decide_eq_true_eq] at valid
      obtain ⟨⟨⟨⟨-, header_length⟩, ct1_length⟩, dec⟩, -⟩ := valid
      simp only [decodeState, State.stateTag, UInt8.reduceToNat]
      exact reads_head open_ (.bind (reads_bytes header_length (by decide))
        (.bind (reads_encaps (encaps_ encaps rfl)) (.bind (reads_bytes ct1_length (by decide))
          (.bind_last (reads_decoder dec) (.of_pure _)))))
  | ct2Sampled epoch auth ct2Enc =>
      simp only [Valid, Braid.invariant, Bool.and_eq_true, decide_eq_true_eq] at valid
      simp only [decodeState, State.stateTag, UInt8.reduceToNat]
      exact reads_head open_ (.bind_last (reads_encoder valid.1.2) (.of_pure _))

/-- **The Braid's round trip.** -/
theorem Braid.fromBytes_toBytes {b : Braid Secret} (valid : Valid ikem b.state)
    (stored : Stored b.state) : Braid.fromBytes ikem b.toBytes = .ok b := by
  have reads : ReadsAll (decodeWhole b.stateTag) b.state.fields b.state :=
    .bind_last (reads_state valid stored) (.atEnd _ (.of_pure _))
  simp [Braid.fromBytes, Braid.toBytes, reads.value, show Braid.invariant ikem b = true from valid]

theorem length_encodeHead (epoch : UInt64) (auth : Auth Secret) :
    (encodeHead epoch auth).length = 72 := by
  simp [encodeHead, Auth.toBytes]

theorem Braid.length_toBytes_lt {b : Braid Secret} (valid : Valid ikem b.state)
    (stored : Stored b.state) : b.toBytes.length < 2 ^ 24 := by
  obtain ⟨st⟩ := b
  obtain ⟨-, pair, encaps_⟩ := stored
  have encoder := @length_encoder
  have decoder := @length_decoder
  simp only [Braid.toBytes, List.length_append, List.length_cons, List.length_nil]
  cases st <;>
    simp only [Valid, Braid.invariant, Bool.and_eq_true, decide_eq_true_eq, State.keyPair,
      State.encapsState, Option.some.injEq, forall_eq', reduceCtorEq, false_implies, implies_true,
      keyPairLen, encapsStateLen, encapsStateCoefficientBytes, headerLen, ct1Len, ekVectorLen]
      at valid pair encaps_ <;>
    simp only [State.fields, List.length_append, length_encodeHead, length_lenPrefix,
      List.length_nil] <;> grind

/-! ## What is read can be stored -/

theorem epoch_ensured : Ensures readEpoch fun e => e ≠ UInt64.maxValue :=
  .skip fun e => .bind (.require _) fun _ open_ => .of_pure (by simpa using open_)

theorem field_ensured {α : Type} {decode : Bytes → Option α} {P : α → Prop}
    (holds : ∀ l a, decode l = some a → P a) : Ensures (readField decode) P := by
  refine .nested _ fun l a decodes => ?_
  split at decodes
  · rename_i a' here
    exact holds l a (by rw [here, Except.ok.inj decodes])
  · simp at decodes

theorem keyPair_ensured : Ensures readKeyPair fun kp => kp.raw.length = keyPairLen := by
  refine field_ensured fun l kp decodes => ?_
  unfold IncrementalKeyPair.fromBytes at decodes
  split at decodes
  · simp at decodes
  · rename_i length
    rw [← Option.some.inj decodes]
    exact not_not.1 length

theorem encaps_ensured : Ensures readEncaps fun e => e.raw.length = encapsStateLen := by
  refine field_ensured fun l e decodes => ?_
  unfold EncapsState.fromBytes at decodes
  split at decodes
  · simp at decodes
  · rename_i length
    rw [← Option.some.inj decodes]
    exact not_not.1 length

/-- The two readers every live state starts with. -/
theorem head_ensured {next : UInt64 → Auth Secret → FieldReader (State Secret)}
    (rest : ∀ epoch auth, epoch ≠ UInt64.maxValue → Ensures (next epoch auth) Stored) :
    Ensures (do let e ← readEpoch; let k ← readAuth; next e k) Stored :=
  epoch_ensured.bind fun epoch open_ => .skip fun auth => rest epoch auth open_

theorem state_ensured (tag : UInt8) : Ensures (decodeState tag) Stored := by
  have plain : ∀ {st : State Secret}, st.epoch ≠ UInt64.maxValue → st.keyPair = none →
      st.encapsState = none → Stored st := fun open_ pair encaps_ =>
    ⟨open_, fun kp h => by simp [pair] at h, fun e h => by simp [encaps_] at h⟩
  have sender : ∀ {st : State Secret} {kp : IncrementalKeyPair}, st.epoch ≠ UInt64.maxValue →
      kp.raw.length = keyPairLen → st.keyPair = some kp → st.encapsState = none → Stored st :=
    fun open_ length pair encaps_ =>
      ⟨open_, fun kp h => by rw [pair] at h; exact Option.some.inj h ▸ length,
        fun e h => by simp [encaps_] at h⟩
  have receiver : ∀ {st : State Secret} {e : EncapsState}, st.epoch ≠ UInt64.maxValue →
      e.raw.length = encapsStateLen → st.encapsState = some e → st.keyPair = none → Stored st :=
    fun open_ length encaps_ pair =>
      ⟨open_, fun kp h => by simp [pair] at h,
        fun e h => by rw [encaps_] at h; exact Option.some.inj h ▸ length⟩
  unfold decodeState
  split
  · exact head_ensured fun epoch auth open_ => .of_pure (plain open_ rfl rfl)
  · exact head_ensured fun epoch auth open_ => keyPair_ensured.bind fun kp length =>
      .skip fun _ => .of_pure (sender open_ length rfl rfl)
  · exact head_ensured fun epoch auth open_ => keyPair_ensured.bind fun kp length =>
      .skip fun _ => .skip fun _ => .of_pure (sender open_ length rfl rfl)
  · exact head_ensured fun epoch auth open_ => keyPair_ensured.bind fun kp length =>
      .skip fun _ => .skip fun _ => .of_pure (sender open_ length rfl rfl)
  · exact head_ensured fun epoch auth open_ => keyPair_ensured.bind fun kp length =>
      .skip fun _ => .skip fun _ => .of_pure (sender open_ length rfl rfl)
  · exact head_ensured fun epoch auth open_ => .skip fun _ => .of_pure (plain open_ rfl rfl)
  · exact head_ensured fun epoch auth open_ => .skip fun _ => .skip fun _ =>
      .of_pure (plain open_ rfl rfl)
  · exact head_ensured fun epoch auth open_ => .skip fun _ => encaps_ensured.bind fun e length =>
      .skip fun _ => .skip fun _ => .skip fun _ => .of_pure (receiver open_ length rfl rfl)
  · exact head_ensured fun epoch auth open_ => encaps_ensured.bind fun e length =>
      .skip fun _ => .skip fun _ => .skip fun _ => .of_pure (receiver open_ length rfl rfl)
  · exact head_ensured fun epoch auth open_ => .skip fun _ => encaps_ensured.bind fun e length =>
      .skip fun _ => .skip fun _ => .of_pure (receiver open_ length rfl rfl)
  · exact head_ensured fun epoch auth open_ => .skip fun _ => .of_pure (plain open_ rfl rfl)
  · exact .of_pure State.failed_stored
  · exact .refuse _

/-- **An agreement that was read satisfies what storing one needs.** -/
theorem Braid.fromBytes_ok {bytes : Bytes} {b : Braid Secret}
    (read : Braid.fromBytes ikem bytes = .ok b) : Valid ikem b.state ∧ Stored b.state := by
  unfold Braid.fromBytes at read
  split at read
  · split at read
    · simp at read
    · split at read
      · simp at read
      · rename_i state decoded
        split at read
        · simp at read
        · rename_i inv
          rw [← Except.ok.inj read]
          refine ⟨by simpa [Valid] using inv, ?_⟩
          exact Ensures.value (.bind (state_ensured _) fun st stored =>
            .skip fun _ => .of_pure stored) decoded
  · simp at read

end Tacenta.Braid
