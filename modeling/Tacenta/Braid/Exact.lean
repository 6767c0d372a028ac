/-
# Tacenta.Braid.Exact -- a stored agreement has one spelling

The three twelve-way cases of the crate that have to agree: what `to_bytes`
writes, the length `encoded_len` sizes the buffer by, and what `decode_state`
reads.  `encodedLen_eq` ties the second to the first and `exhausts_whole` the
third, so whatever bytes `Braid::from_bytes` accepts are the ones `to_bytes`
writes for the state it returns.
-/
import Tacenta.Braid.Codec

set_option autoImplicit false
set_option linter.dupNamespace false

namespace Tacenta.Braid

open Tacenta.Erasure (Encoder Decoder FieldReader)
open Tacenta.Kem

/-! ## The length of the encoding -/

def headLen : Nat := 1 + 1
def epochAndAuthLen : Nat := 8 + 64

/-- A field of `len` bytes behind its length. -/
def lenPrefixedLen (len : Nat) : Nat := 4 + len

/-- How many bytes `toBytes` writes, field by field. -/
def Braid.encodedLen (b : Braid Secret) : Nat :=
  match b.state with
  | .keysUnsampled .. => headLen + epochAndAuthLen
  | .keysSampled _ _ kp hdrEnc =>
      headLen + epochAndAuthLen + lenPrefixedLen kp.raw.length + lenPrefixedLen hdrEnc.encodedLen
  | .headerSent _ _ kp ct1Dec ekEnc =>
      headLen + epochAndAuthLen + lenPrefixedLen kp.raw.length + lenPrefixedLen ct1Dec.encodedLen +
        lenPrefixedLen ekEnc.encodedLen
  | .ct1Received _ _ kp ct1 ekEnc =>
      headLen + epochAndAuthLen + lenPrefixedLen kp.raw.length + lenPrefixedLen ct1.length +
        lenPrefixedLen ekEnc.encodedLen
  | .ekSentCt1Received _ _ kp ct1 ct2Dec =>
      headLen + epochAndAuthLen + lenPrefixedLen kp.raw.length + lenPrefixedLen ct1.length +
        lenPrefixedLen ct2Dec.encodedLen
  | .noHeaderReceived _ _ hdrDec =>
      headLen + epochAndAuthLen + lenPrefixedLen hdrDec.encodedLen
  | .headerReceived _ _ header ekDec =>
      headLen + epochAndAuthLen + lenPrefixedLen header.length + lenPrefixedLen ekDec.encodedLen
  | .ct1Sampled _ _ header encaps ct1 ct1Enc ekDec =>
      headLen + epochAndAuthLen + lenPrefixedLen header.length + lenPrefixedLen encaps.raw.length +
        lenPrefixedLen ct1.length + lenPrefixedLen ct1Enc.encodedLen +
        lenPrefixedLen ekDec.encodedLen
  | .ekReceivedCt1Sampled _ _ encaps ct1 ekVector ct1Enc =>
      headLen + epochAndAuthLen + lenPrefixedLen encaps.raw.length + lenPrefixedLen ct1.length +
        lenPrefixedLen ekVector.length + lenPrefixedLen ct1Enc.encodedLen
  | .ct1Acknowledged _ _ header encaps ct1 ekDec =>
      headLen + epochAndAuthLen + lenPrefixedLen header.length + lenPrefixedLen encaps.raw.length +
        lenPrefixedLen ct1.length + lenPrefixedLen ekDec.encodedLen
  | .ct2Sampled _ _ ct2Enc =>
      headLen + epochAndAuthLen + lenPrefixedLen ct2Enc.encodedLen
  | .failed => headLen

/-- **The buffer is sized exactly**, in every state. -/
theorem Braid.encodedLen_eq (b : Braid Secret) : b.encodedLen = b.toBytes.length := by
  obtain ⟨st⟩ := b
  cases st <;>
    simp only [Braid.encodedLen, Braid.toBytes, State.fields, headLen, epochAndAuthLen,
      lenPrefixedLen, Encoder.encodedLen_eq, Decoder.encodedLen_eq, List.length_append,
      length_encodeHead, length_lenPrefix, List.length_cons, List.length_nil] <;>
    omega

/-! ## What each reader was given -/

theorem consumes_epoch : Consumes readEpoch fun used epoch => used = be64 epoch := by
  refine .bind (.u64 _) ?_
  rintro _ epoch rfl
  refine .bind (.require _) ?_
  rintro _ - ⟨rfl, -⟩
  exact .of_pure (by simp)

theorem consumes_auth : Consumes readAuth fun used auth => used = auth.toBytes := by
  refine .bind (.arr _ 32) ?_
  rintro _ rootKey rfl
  refine .bind (.arr _ 32) ?_
  rintro _ macKey rfl
  exact .of_pure (by simp [Auth.toBytes])

/-- The two readers every live state starts with. -/
theorem consumes_head {α : Type} {next : UInt64 → Auth Secret → FieldReader α}
    {P : Bytes → α → Prop}
    (rest : ∀ epoch auth, Consumes (next epoch auth) fun more a => P (encodeHead epoch auth ++ more) a) :
    Consumes (do let e ← readEpoch; let k ← readAuth; next e k) P := by
  refine .bind consumes_epoch ?_
  rintro _ epoch rfl
  refine .bind consumes_auth ?_
  rintro _ auth rfl
  refine (rest epoch auth).mono fun more a holds => ?_
  rwa [← List.append_assoc]

/-- A field whose own decoder accepts one spelling of each value. -/
theorem consumes_field {α : Type} {decode : Bytes → Option α} {write : α → Bytes}
    (spelled : ∀ l a, decode l = some a → write a = l) :
    Consumes (readField decode) fun used a => used = lenPrefix (write a) := by
  refine (Consumes.nested _ _).mono ?_
  rintro _ a ⟨l, rfl, decoded⟩
  split at decoded
  · rename_i a' here
    rw [spelled l a (by rw [here, Except.ok.inj decoded])]
  · simp at decoded

theorem consumes_bytes : Consumes readBytes fun used l => used = lenPrefix l := .lenPrefixed _

theorem consumes_keyPair : Consumes readKeyPair fun used kp => used = lenPrefix kp.raw := by
  refine consumes_field fun l kp decoded => ?_
  unfold IncrementalKeyPair.fromBytes at decoded
  split at decoded
  · simp at decoded
  · rw [← Option.some.inj decoded]

theorem consumes_encaps : Consumes readEncaps fun used encaps => used = lenPrefix encaps.raw := by
  refine consumes_field fun l encaps decoded => ?_
  unfold EncapsState.fromBytes at decoded
  split at decoded
  · simp at decoded
  · rw [← Option.some.inj decoded]

theorem consumes_encoder : Consumes readEncoder fun used enc => used = lenPrefix enc.toBytes :=
  consumes_field fun _ _ decoded => (Encoder.fromBytes_some decoded).1

theorem consumes_decoder : Consumes readDecoder fun used dec => used = lenPrefix dec.toBytes :=
  consumes_field fun _ _ decoded => (Decoder.fromBytes_some decoded).1

/-! ## The states -/

/-- **`decode_state` reads the fields its tag calls for**, and the state it
returns has that tag. -/
theorem consumes_state (tag : UInt8) :
    Consumes (decodeState tag) fun used st => used = st.fields ∧ st.stateTag = tag := by
  unfold decodeState
  split
  case h_1 known =>
    exact consumes_head fun epoch auth => .of_pure ⟨by simp [State.fields], UInt8.toNat_inj.1 known.symm⟩
  case h_2 known =>
    refine consumes_head fun epoch auth => ?_
    refine .bind consumes_keyPair ?_
    rintro _ kp rfl
    refine .bind consumes_encoder ?_
    rintro _ hdrEnc rfl
    exact .of_pure ⟨by simp [State.fields], UInt8.toNat_inj.1 known.symm⟩
  case h_3 known =>
    refine consumes_head fun epoch auth => ?_
    refine .bind consumes_keyPair ?_
    rintro _ kp rfl
    refine .bind consumes_decoder ?_
    rintro _ ct1Dec rfl
    refine .bind consumes_encoder ?_
    rintro _ ekEnc rfl
    exact .of_pure ⟨by simp [State.fields], UInt8.toNat_inj.1 known.symm⟩
  case h_4 known =>
    refine consumes_head fun epoch auth => ?_
    refine .bind consumes_keyPair ?_
    rintro _ kp rfl
    refine .bind consumes_bytes ?_
    rintro _ ct1 rfl
    refine .bind consumes_encoder ?_
    rintro _ ekEnc rfl
    exact .of_pure ⟨by simp [State.fields], UInt8.toNat_inj.1 known.symm⟩
  case h_5 known =>
    refine consumes_head fun epoch auth => ?_
    refine .bind consumes_keyPair ?_
    rintro _ kp rfl
    refine .bind consumes_bytes ?_
    rintro _ ct1 rfl
    refine .bind consumes_decoder ?_
    rintro _ ct2Dec rfl
    exact .of_pure ⟨by simp [State.fields], UInt8.toNat_inj.1 known.symm⟩
  case h_6 known =>
    refine consumes_head fun epoch auth => ?_
    refine .bind consumes_decoder ?_
    rintro _ hdrDec rfl
    exact .of_pure ⟨by simp [State.fields], UInt8.toNat_inj.1 known.symm⟩
  case h_7 known =>
    refine consumes_head fun epoch auth => ?_
    refine .bind consumes_bytes ?_
    rintro _ header rfl
    refine .bind consumes_decoder ?_
    rintro _ ekDec rfl
    exact .of_pure ⟨by simp [State.fields], UInt8.toNat_inj.1 known.symm⟩
  case h_8 known =>
    refine consumes_head fun epoch auth => ?_
    refine .bind consumes_bytes ?_
    rintro _ header rfl
    refine .bind consumes_encaps ?_
    rintro _ encaps rfl
    refine .bind consumes_bytes ?_
    rintro _ ct1 rfl
    refine .bind consumes_encoder ?_
    rintro _ ct1Enc rfl
    refine .bind consumes_decoder ?_
    rintro _ ekDec rfl
    exact .of_pure ⟨by simp [State.fields], UInt8.toNat_inj.1 known.symm⟩
  case h_9 known =>
    refine consumes_head fun epoch auth => ?_
    refine .bind consumes_encaps ?_
    rintro _ encaps rfl
    refine .bind consumes_bytes ?_
    rintro _ ct1 rfl
    refine .bind consumes_bytes ?_
    rintro _ ekVector rfl
    refine .bind consumes_encoder ?_
    rintro _ ct1Enc rfl
    exact .of_pure ⟨by simp [State.fields], UInt8.toNat_inj.1 known.symm⟩
  case h_10 known =>
    refine consumes_head fun epoch auth => ?_
    refine .bind consumes_bytes ?_
    rintro _ header rfl
    refine .bind consumes_encaps ?_
    rintro _ encaps rfl
    refine .bind consumes_bytes ?_
    rintro _ ct1 rfl
    refine .bind consumes_decoder ?_
    rintro _ ekDec rfl
    exact .of_pure ⟨by simp [State.fields], UInt8.toNat_inj.1 known.symm⟩
  case h_11 known =>
    refine consumes_head fun epoch auth => ?_
    refine .bind consumes_encoder ?_
    rintro _ ct2Enc rfl
    exact .of_pure ⟨by simp [State.fields], UInt8.toNat_inj.1 known.symm⟩
  case h_12 known => exact .of_pure ⟨rfl, UInt8.toNat_inj.1 known.symm⟩
  case h_13 => exact .refuse _

theorem exhausts_whole (tag : UInt8) :
    Exhausts (decodeWhole tag) fun input st => input = st.fields ∧ st.stateTag = tag := by
  refine .bind (consumes_state tag) ?_
  rintro _ st ⟨rfl, tagged⟩
  exact .atEnd _ (.of_pure ⟨List.append_nil _, tagged⟩)

/-- **An accepted agreement is spelled one way.** -/
theorem Braid.toBytes_fromBytes {ikem : IncKem Secret} {bytes : Bytes} {b : Braid Secret}
    (read : Braid.fromBytes ikem bytes = .ok b) : b.toBytes = bytes := by
  unfold Braid.fromBytes at read
  split at read
  · rename_i version tag rest
    split at read
    · simp at read
    · rename_i current
      split at read
      · simp at read
      · rename_i state here
        split at read
        · simp at read
        · obtain ⟨fields, tagged⟩ := (exhausts_whole tag).value here
          rw [← Except.ok.inj read, Braid.toBytes, Braid.stateTag, tagged, ← fields,
            not_not.1 current]
          rfl
  · simp at read

/-- **Braid storage is exact.**  A state within its invariant, below the last
epoch and with the KEM's own values at their lengths, is restored from its bytes,
which are as many as `encoded_len` says; whatever is accepted is those bytes; and
no two strings, one the other's prefix, are accepted as one state. -/
theorem braid_storage_exact (ikem : IncKem Secret) :
    (∀ b : Braid Secret, Braid.invariant ikem b = true → b.state.epoch < UInt64.maxValue →
      (∀ kp, b.state.keyPair = some kp → kp.raw.length = keyPairLen) →
      (∀ encaps, b.state.encapsState = some encaps → encaps.raw.length = encapsStateLen) →
      Braid.fromBytes ikem b.toBytes = .ok b ∧ b.encodedLen = b.toBytes.length) ∧
    (∀ bytes b, Braid.fromBytes ikem bytes = .ok b → b.toBytes = bytes) ∧
    (∀ bytes more b, more ≠ [] → Braid.fromBytes ikem bytes = .ok b →
      Braid.fromBytes ikem (bytes ++ more) ≠ .ok b) := by
  refine ⟨fun b valid below pair encaps_ => ⟨?_, b.encodedLen_eq⟩, fun bytes b read => ?_, ?_⟩
  · exact Braid.fromBytes_toBytes valid
      ⟨fun last => absurd (last ▸ below) (by decide), pair, encaps_⟩
  · exact Braid.toBytes_fromBytes read
  · intro bytes more b longer read again
    have same : bytes = bytes ++ more :=
      (Braid.toBytes_fromBytes read).symm.trans (Braid.toBytes_fromBytes again)
    exact longer (List.self_eq_append_right.1 same)

end Tacenta.Braid
