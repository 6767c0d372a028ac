/-
# Tacenta.Wire.Bundle -- the published prekey bundle

`encode_bundle` and `decode_bundle` of `tacenta-wire`, on the reader: fixed-width
fields, a length prefix that has one accepted value, and a one-time prekey at its
full width either way.
-/
import Tacenta.Curve
import Tacenta.Wire

set_option autoImplicit false

namespace Tacenta.Wire

/-- A published prekey bundle. -/
def typeBundle : UInt8 := 0x03

/-- Where the KEM prekey starts. -/
def bundleKemAt : Nat := 134

/-- The one length a bundle's KEM prekey has. -/
def kemPrekeyLen : Nat := 1568

structure WireBundle where
  identityKey : Arr 32
  signedPrekey : Arr 32
  signedPrekeySignature : Arr 64
  kemPrekey : Bytes
  kemPrekeySignature : Arr 64
  oneTimePrekey : Option (Arr 32)
  signedPrekeyId : UInt32
  oneTimePrekeyId : UInt32
  kemPrekeyId : UInt32
  deriving DecidableEq

def encodeBundle (b : WireBundle) : Bytes :=
  [version] ++ ([typeBundle] ++ (b.identityKey.toList ++ (b.signedPrekey.toList ++
    (b.signedPrekeySignature.toList ++ (lenPrefix b.kemPrekey ++ (b.kemPrekeySignature.toList ++
      (writePadded 32 Vector.toList b.oneTimePrekey ++ (be32 b.signedPrekeyId ++
        (be32 b.oneTimePrekeyId ++ be32 b.kemPrekeyId)))))))))

/-- The one-time prekey's field: absent means zero, present means canonical. -/
def oneTimePrekey : Reader DecodeError (Option (Arr 32)) := do
  let present ← Reader.u8 .tooShort
  let key ← Reader.arr .tooShort 32
  if present = 0x00 then do
    Reader.require (key.toList.all (· == 0)) .lengthOverrun
    pure none
  else if present = 0x01 then do
    Reader.require (Curve.isCanonicalX25519 key) .wrongType
    pure (some key)
  else Reader.refuse .wrongType

def bundleFields : Reader DecodeError WireBundle := do
  Reader.atLeast .tooShort 2
  let v ← Reader.u8 .tooShort
  Reader.require (v == version) .unknownVersion
  let ty ← Reader.u8 .tooShort
  Reader.require (ty == typeBundle) .wrongType
  Reader.atLeast .tooShort (bundleKemAt - 2)
  let identityKey ← Reader.arr .tooShort 32
  let signedPrekey ← Reader.arr .tooShort 32
  let signedPrekeySignature ← Reader.arr .tooShort 64
  let kemLen ← Reader.u32 .tooShort
  Reader.require (kemLen.toNat == kemPrekeyLen) .lengthOverrun
  let kemPrekey ← Reader.bytes .lengthOverrun kemLen.toNat
  let kemPrekeySignature ← Reader.arr .tooShort 64
  Reader.atLeast .tooShort 33
  let oneTimePrekey ← oneTimePrekey
  Reader.atLeast .tooShort 12
  let signedPrekeyId ← Reader.u32 .tooShort
  let oneTimePrekeyId ← Reader.u32 .tooShort
  let kemPrekeyId ← Reader.u32 .tooShort
  Reader.atEnd .lengthOverrun
  Reader.require (Curve.isCanonicalX25519 identityKey) .wrongType
  Reader.require (Curve.isCanonicalX25519 signedPrekey) .wrongType
  pure { identityKey, signedPrekey, signedPrekeySignature, kemPrekey, kemPrekeySignature,
         oneTimePrekey, signedPrekeyId, oneTimePrekeyId, kemPrekeyId }

def decodeBundle (bytes : Bytes) : Except DecodeError WireBundle := bundleFields.value bytes

/-! ## The values that have an encoding -/

/-- A composite header a decoder can return: its ratchet key is canonical. -/
def Composite.Admissible (h : Composite) : Prop := Curve.Canonical h.dh

/-- A key behind its curve byte, in its canonical encoding. -/
def CanonicalEc (key : Bytes) : Prop :=
  ∃ k : Arr 32, key = encodeEcCurve25519 :: k.toList ∧ Curve.Canonical k

structure DecodedInitial.Admissible (v : DecodedInitial) : Prop where
  identity : CanonicalEc v.identity
  ephemeral : CanonicalEc v.ephemeral
  kemCiphertext : v.kemCiphertext.length < 2 ^ 32

structure WireBundle.Admissible (b : WireBundle) : Prop where
  identityKey : Curve.Canonical b.identityKey
  signedPrekey : Curve.Canonical b.signedPrekey
  oneTimePrekey : ∀ k, b.oneTimePrekey = some k → Curve.Canonical k
  kemPrekey : b.kemPrekey.length = kemPrekeyLen

/-! ## An admissible value is read back -/

theorem reads_oneTimePrekey {o : Option (Arr 32)}
    (canonical : ∀ k, o = some k → Curve.Canonical k) :
    Reads oneTimePrekey (writePadded 32 Vector.toList o) o := by
  cases o with
  | none =>
      have zero : (List.replicate 32 0 : Bytes) = (Vector.replicate 32 0 : Arr 32).toList := by simp
      rw [writePadded, zero]
      refine (Reads.u8 _ 0x00).bind (.bind_last (Reads.arr _ _) ?_)
      exact .bind_nil (.require _ (by simp)) (.of_pure _)
  | some k =>
      refine (Reads.u8 _ 0x01).bind (.bind_last (Reads.arr _ k) ?_)
      exact .bind_nil (.require _ (Curve.isCanonicalX25519_iff.2 (canonical k rfl))) (.of_pure _)

theorem length_encodeBundle (b : WireBundle) :
    (encodeBundle b).length = 243 + b.kemPrekey.length := by
  have padded : (writePadded 32 Vector.toList b.oneTimePrekey : Bytes).length = 33 :=
    length_writePadded (by simp) _
  simp only [encodeBundle, List.length_append, padded, length_lenPrefix, Arr.length_toList,
    length_be32, List.length_singleton]
  omega

/-- **The bundle round trip.** -/
theorem decodeBundle_encodeBundle {b : WireBundle} (admissible : b.Admissible) :
    decodeBundle (encodeBundle b) = .ok b := by
  have small : b.kemPrekey.length < 2 ^ 32 := by
    rw [admissible.kemPrekey]
    decide
  have prefixed : (UInt32.ofNat b.kemPrekey.length).toNat = b.kemPrekey.length := by
    rw [UInt32.toNat_ofNat', Nat.mod_eq_of_lt small]
  have long := length_encodeBundle b
  refine ReadsAll.value (.atLeast (by omega) ?_)
  refine .bind (Reads.u8 _ version) (.bind_nil (.require _ (by decide)) ?_)
  refine .bind (Reads.u8 _ typeBundle) (.bind_nil (.require _ (by decide)) ?_)
  refine .atLeast ?_ ?_
  · simp only [encodeBundle, List.length_append, List.length_singleton] at long
    simp only [List.length_append, bundleKemAt]
    omega
  refine .bind (Reads.arr _ b.identityKey) (.bind (Reads.arr _ b.signedPrekey) ?_)
  refine .bind (Reads.arr _ b.signedPrekeySignature) ?_
  rw [lenPrefix, List.append_assoc]
  refine .bind (Reads.u32 _ _) (.bind_nil (.require _ ?_) ?_)
  · rw [prefixed, admissible.kemPrekey]
    decide
  refine .bind (Reads.bytes _ prefixed.symm) (.bind (Reads.arr _ b.kemPrekeySignature) ?_)
  have padded : (writePadded 32 Vector.toList b.oneTimePrekey : Bytes).length = 33 :=
    length_writePadded (by simp) _
  refine .atLeast (by rw [List.length_append]; omega) ?_
  refine .bind (reads_oneTimePrekey admissible.oneTimePrekey) (.atLeast (by simp) ?_)
  refine .bind (Reads.u32 _ _) (.bind (Reads.u32 _ _) ?_)
  refine .bind_last (Reads.u32 _ _) (.atEnd _ ?_)
  refine .bind_nil (.require _ (Curve.isCanonicalX25519_iff.2 admissible.identityKey)) ?_
  exact .bind_nil (.require _ (Curve.isCanonicalX25519_iff.2 admissible.signedPrekey)) (.of_pure _)

end Tacenta.Wire
