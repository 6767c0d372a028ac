/-
# Tacenta.Wire.Exact -- what the wire decoders accept

Each decoder followed backwards: the bytes it accepts are the encoding of what it
returns, and what it returns is admissible.  With the round trips that makes the
decoders exact: `decodeMessage_iff`, `decodeInitial_iff`, `decodeBundle_iff`.
-/
import Tacenta.Wire.Bundle

set_option autoImplicit false

namespace Tacenta.Wire

/-! ## The composite header -/

theorem fromByte_eq_some {b : UInt8} {t : AgreementType} (found : AgreementType.fromByte b = some t) :
    b = t.toByte := by
  unfold AgreementType.fromByte at found
  split_ifs at found with h0 h1 h2 h3 h4 h5 <;> cases Option.some.inj found <;> assumption

theorem chunkOf_ok {present : UInt8} {index : UInt16} {data : Arr 32} {c : Option Codeword}
    (flag : (present == 0x00 || present == 0x01) = true) (read : chunkOf present index data = .ok c) :
    present :: (be16 index ++ data.toList) = encodeChunk c := by
  unfold chunkOf at read
  split at read
  · rename_i one
    cases Except.ok.inj read
    rw [one, encodeChunk]
  · rename_i one
    split at read
    · simp at read
    · rename_i zero
      cases Except.ok.inj read
      rw [not_or, not_not] at zero
      have absent : present = 0x00 := by
        simp only [Bool.or_eq_true, beq_iff_eq] at flag
        exact flag.resolve_right one
      have zeros : data.toList = List.replicate 32 0 := by
        rw [List.eq_replicate_iff]
        refine ⟨by simp, fun b member => ?_⟩
        by_contra nonzero
        exact zero.2 (List.any_eq_true.2 ⟨b, member, by simpa using nonzero⟩)
      rw [absent, zero.1, zeros]
      decide

theorem consumes_composite :
    Consumes decodeComposite fun used h => h.Admissible ∧ used = encodeComposite h := by
  refine .bind (.atLeast _ _) ?_
  rintro _ - rfl
  refine .bind (.u8 _) ?_
  rintro _ v rfl
  refine .bind (.require _) ?_
  rintro _ - ⟨rfl, hv⟩
  refine .bind (.u8 _) ?_
  rintro _ ty rfl
  refine .bind (.require _) ?_
  rintro _ - ⟨rfl, hty⟩
  refine .bind (.arr _ 32) ?_
  rintro _ dh rfl
  refine .bind (.require _) ?_
  rintro _ - ⟨rfl, canonical⟩
  refine .bind (.u32 _) ?_
  rintro _ pn rfl
  refine .bind (.u32 _) ?_
  rintro _ n rfl
  refine .bind (.u64 _) ?_
  rintro _ pqEpoch rfl
  refine .bind (.u64 _) ?_
  rintro _ pqN rfl
  refine .bind (.u64 _) ?_
  rintro _ agEpoch rfl
  refine .bind (.u8 _) ?_
  rintro _ tyByte rfl
  refine .bind .lift ?_
  rintro _ agType ⟨rfl, known⟩
  refine .bind (.u8 _) ?_
  rintro _ present rfl
  refine .bind (.require _) ?_
  rintro _ - ⟨rfl, flag⟩
  refine .bind (.u16 _) ?_
  rintro _ index rfl
  refine .bind (.arr _ 32) ?_
  rintro _ data rfl
  refine .bind .lift ?_
  rintro _ agChunk ⟨rfl, chunk⟩
  refine .of_pure ⟨Curve.isCanonicalX25519_iff.1 canonical, ?_⟩
  have byte : tyByte = agType.toByte := by
    refine fromByte_eq_some ?_
    split at known
    · rename_i t found
      rw [found, Except.ok.inj known]
    · simp at known
  rw [encodeComposite, ← chunkOf_ok flag chunk, byte, beq_iff_eq.1 hv, beq_iff_eq.1 hty]
  simp

theorem decodeMessage_ok {bytes : Bytes} {v : DecodedMessage} (read : decodeMessage bytes = .ok v) :
    v.header.Admissible ∧ bytes = encodeMessage v.header v.ciphertext := by
  unfold decodeMessage at read
  split at read
  · rename_i header ciphertext here
    obtain ⟨used, rfl, canonical, rfl⟩ := consumes_composite _ _ _ here
    rw [← Except.ok.inj read]
    exact ⟨canonical, rfl⟩
  · simp at read

/-- **`decode_message` is exact.** -/
theorem decodeMessage_iff {bytes : Bytes} {v : DecodedMessage} :
    decodeMessage bytes = .ok v ↔
      v.header.Admissible ∧ encodeMessage v.header v.ciphertext = bytes := by
  constructor
  · intro read
    obtain ⟨canonical, spelled⟩ := decodeMessage_ok read
    exact ⟨canonical, spelled.symm⟩
  · rintro ⟨canonical, rfl⟩
    exact decodeMessage_encodeMessage v.header v.ciphertext (Curve.isCanonicalX25519_iff.2 canonical)

/-! ## The initial message -/

theorem canonicalEc_spelled {key : Bytes} (curve : (key.head? == some encodeEcCurve25519) = true)
    (canonical : Wire.canonicalEc key = true) : CanonicalEc key := by
  unfold Wire.canonicalEc at canonical
  split at canonical
  · rename_i k found
    refine ⟨k, ?_, Curve.isCanonicalX25519_iff.1 canonical⟩
    cases key with
    | nil => simp at curve
    | cons b rest =>
        have same : b = encodeEcCurve25519 := by simpa using curve
        rw [same, ← Arr.ofBytes?_eq_some.1 found, List.drop_one, List.tail_cons]
  · simp at canonical

theorem consumes_initialFields :
    Consumes initialFields fun used v => v.message = [] ∧ v.Admissible ∧
      used = encodeInitial v.identity v.ephemeral v.kemCiphertext v.signedPrekeyId
        v.oneTimePrekeyId v.kemPrekeyId [] := by
  refine .bind (.atLeast _ _) ?_
  rintro _ - rfl
  refine .bind (.u8 _) ?_
  rintro _ v rfl
  refine .bind (.require _) ?_
  rintro _ - ⟨rfl, hv⟩
  refine .bind (.u8 _) ?_
  rintro _ ty rfl
  refine .bind (.require _) ?_
  rintro _ - ⟨rfl, hty⟩
  refine .bind (.bytes _ _) ?_
  rintro identity _ ⟨rfl, -⟩
  refine .bind (.bytes _ _) ?_
  rintro ephemeral _ ⟨rfl, -⟩
  refine .bind (.require _) ?_
  rintro _ - ⟨rfl, identityCurve⟩
  refine .bind (.require _) ?_
  rintro _ - ⟨rfl, ephemeralCurve⟩
  refine .bind (.require _) ?_
  rintro _ - ⟨rfl, identityCanonical⟩
  refine .bind (.require _) ?_
  rintro _ - ⟨rfl, ephemeralCanonical⟩
  refine .bind (.u32 _) ?_
  rintro _ kemLen rfl
  refine .bind (.bytes _ _) ?_
  rintro kemCiphertext _ ⟨rfl, length⟩
  refine .bind (.u32 _) ?_
  rintro _ signedPrekeyId rfl
  refine .bind (.u32 _) ?_
  rintro _ oneTimePrekeyId rfl
  refine .bind (.u32 _) ?_
  rintro _ kemPrekeyId rfl
  have small := kemLen.toNat_lt
  refine .of_pure ⟨rfl, ⟨canonicalEc_spelled identityCurve identityCanonical,
    canonicalEc_spelled ephemeralCurve ephemeralCanonical, by rw [length]; exact small⟩, ?_⟩
  rw [encodeInitial, lenPrefix, length, UInt32.ofNat_toNat, beq_iff_eq.1 hv, beq_iff_eq.1 hty]
  simp

theorem decodeInitial_ok {bytes : Bytes} {v : DecodedInitial} (read : decodeInitial bytes = .ok v) :
    v.Admissible ∧ bytes = encodeInitial v.identity v.ephemeral v.kemCiphertext v.signedPrekeyId
      v.oneTimePrekeyId v.kemPrekeyId v.message := by
  unfold decodeInitial at read
  split at read
  · rename_i fields message here
    obtain ⟨used, rfl, -, admissible, rfl⟩ := consumes_initialFields _ _ _ here
    rw [← Except.ok.inj read]
    refine ⟨⟨admissible.identity, admissible.ephemeral, admissible.kemCiphertext⟩, ?_⟩
    simp [encodeInitial]
  · simp at read

/-- **`decode_initial` is exact.** -/
theorem decodeInitial_iff {bytes : Bytes} {v : DecodedInitial} :
    decodeInitial bytes = .ok v ↔ v.Admissible ∧
      encodeInitial v.identity v.ephemeral v.kemCiphertext v.signedPrekeyId v.oneTimePrekeyId
        v.kemPrekeyId v.message = bytes := by
  constructor
  · intro read
    obtain ⟨admissible, spelled⟩ := decodeInitial_ok read
    exact ⟨admissible, spelled.symm⟩
  · rintro ⟨admissible, rfl⟩
    obtain ⟨identity, ephemeral, kemCiphertext, _, _, _, message⟩ := v
    obtain ⟨ik, rfl, identityCanonical⟩ := admissible.identity
    obtain ⟨ek, rfl, ephemeralCanonical⟩ := admissible.ephemeral
    exact decodeInitial_encodeInitial _ _ _ message (Curve.isCanonicalX25519_iff.2 identityCanonical)
      (Curve.isCanonicalX25519_iff.2 ephemeralCanonical) admissible.kemCiphertext

/-! ## The bundle -/

theorem consumes_oneTimePrekey :
    Consumes oneTimePrekey fun used o => used = writePadded 32 Vector.toList o ∧
      ∀ k, o = some k → Curve.Canonical k := by
  refine .bind (.u8 _) ?_
  rintro _ present rfl
  refine .bind (.arr _ 32) ?_
  rintro _ key rfl
  by_cases absent : present = 0x00
  · rw [if_pos absent]
    refine .bind (.require _) ?_
    rintro _ - ⟨rfl, zero⟩
    have zeros : key.toList = List.replicate 32 0 := by
      rw [List.eq_replicate_iff]
      exact ⟨by simp, fun b member => beq_iff_eq.1 (List.all_eq_true.1 zero b member)⟩
    refine .of_pure ⟨?_, by simp⟩
    rw [writePadded, absent, zeros]
    rfl
  · rw [if_neg absent]
    by_cases one : present = 0x01
    · rw [if_pos one]
      refine .bind (.require _) ?_
      rintro _ - ⟨rfl, canonical⟩
      refine .of_pure ⟨by simp [writePadded, one], ?_⟩
      rintro k found
      rw [← Option.some.inj found]
      exact Curve.isCanonicalX25519_iff.1 canonical
    · rw [if_neg one]
      exact .refuse _

theorem exhausts_bundleFields :
    Exhausts bundleFields fun input b => b.Admissible ∧ input = encodeBundle b := by
  refine .bind (.atLeast _ _) ?_
  rintro _ - rfl
  refine .bind (.u8 _) ?_
  rintro _ v rfl
  refine .bind (.require _) ?_
  rintro _ - ⟨rfl, hv⟩
  refine .bind (.u8 _) ?_
  rintro _ ty rfl
  refine .bind (.require _) ?_
  rintro _ - ⟨rfl, hty⟩
  refine .bind (.atLeast _ _) ?_
  rintro _ - rfl
  refine .bind (.arr _ 32) ?_
  rintro _ identityKey rfl
  refine .bind (.arr _ 32) ?_
  rintro _ signedPrekey rfl
  refine .bind (.arr _ 64) ?_
  rintro _ signature rfl
  refine .bind (.u32 _) ?_
  rintro _ kemLen rfl
  refine .bind (.require _) ?_
  rintro _ - ⟨rfl, declared⟩
  refine .bind (.bytes _ _) ?_
  rintro kemPrekey _ ⟨rfl, length⟩
  refine .bind (.arr _ 64) ?_
  rintro _ kemSignature rfl
  refine .bind (.atLeast _ _) ?_
  rintro _ - rfl
  refine .bind consumes_oneTimePrekey ?_
  rintro _ oneTime ⟨rfl, oneTimeCanonical⟩
  refine .bind (.atLeast _ _) ?_
  rintro _ - rfl
  refine .bind (.u32 _) ?_
  rintro _ signedPrekeyId rfl
  refine .bind (.u32 _) ?_
  rintro _ oneTimePrekeyId rfl
  refine .bind (.u32 _) ?_
  rintro _ kemPrekeyId rfl
  refine .atEnd _ ?_
  refine .bind (.require _) fun _ identityCanonical => ?_
  refine .bind (.require _) fun _ signedCanonical => ?_
  refine .of_pure ⟨⟨Curve.isCanonicalX25519_iff.1 identityCanonical,
    Curve.isCanonicalX25519_iff.1 signedCanonical, oneTimeCanonical, ?_⟩, ?_⟩
  · rw [length]
    exact beq_iff_eq.1 declared
  · rw [encodeBundle, lenPrefix, length, UInt32.ofNat_toNat, beq_iff_eq.1 hv, beq_iff_eq.1 hty]
    simp

/-- **`decode_bundle` is exact.** -/
theorem decodeBundle_iff {bytes : Bytes} {b : WireBundle} :
    decodeBundle bytes = .ok b ↔ b.Admissible ∧ encodeBundle b = bytes := by
  constructor
  · intro read
    obtain ⟨admissible, spelled⟩ := exhausts_bundleFields.value read
    exact ⟨admissible, spelled.symm⟩
  · rintro ⟨admissible, rfl⟩
    exact decodeBundle_encodeBundle admissible

/-! ## One decoder for each byte string -/

theorem framing_encodeMessage (h : Composite) (ciphertext : Bytes) :
    (encodeMessage h ciphertext)[1]? = some typeRatchet := by
  simp [encodeMessage, encodeComposite]

theorem framing_encodeInitial (identity ephemeral kemCiphertext : Bytes)
    (signedPrekeyId oneTimePrekeyId kemPrekeyId : UInt32) (message : Bytes) :
    (encodeInitial identity ephemeral kemCiphertext signedPrekeyId oneTimePrekeyId kemPrekeyId
      message)[1]? = some typeInitial := by
  simp [encodeInitial]

theorem framing_encodeBundle (b : WireBundle) : (encodeBundle b)[1]? = some typeBundle := by
  simp [encodeBundle]

end Tacenta.Wire
