/-
# Tacenta.Wire -- the wire encoding

`tacenta-wire` and the session crate's `serialization`: the composite header
every message carries, the two kinds of message, and the associated data the
header is authenticated as.  Every field is fixed width, so the encoders are
concatenations and the decoders read them in order.

`decodeMessage_encodeMessage` and `decodeInitial_encodeInitial` are the round
trips; `encodeComposite_inj` and `concatAd_inj` say that a header, and the pair
of associated data and header, are recoverable from their bytes.
-/
import Tacenta.Boundary
import Tacenta.Format

set_option autoImplicit false

namespace Tacenta.Wire

/-- The message version byte. -/
def version : UInt8 := 0x01
/-- A ratchet message. -/
def typeRatchet : UInt8 := 0x01
/-- An initial (prekey) message. -/
def typeInitial : UInt8 := 0x02
/-- The identifier meaning "no prekey was used". -/
def absentId : UInt32 := 0
def chunkBytes : Nat := 32
def compositeLen : Nat := 2 + 32 + 4 + 4 + 8 + 8 + 8 + 1 + 1 + 2 + chunkBytes
/-- The width of an `EncodeEC` public key. -/
def ecLen : Nat := 33
/-- The `EncodeEC` curve byte. -/
def encodeEcCurve25519 : UInt8 := 0x05

inductive DecodeError where
  | unknownVersion
  | wrongType
  | tooShort
  | lengthOverrun
  deriving DecidableEq, Repr

/-- What the agreement's message carries. -/
inductive AgreementType where
  | none
  | hdr
  | ek
  | ekCt1Ack
  | ct1
  | ct2
  deriving DecidableEq, Repr

namespace AgreementType

def toByte : AgreementType → UInt8
  | none => 0x00
  | hdr => 0x01
  | ek => 0x02
  | ekCt1Ack => 0x03
  | ct1 => 0x04
  | ct2 => 0x05

def fromByte (b : UInt8) : Option AgreementType :=
  if b = 0x00 then some none
  else if b = 0x01 then some hdr
  else if b = 0x02 then some ek
  else if b = 0x03 then some ekCt1Ack
  else if b = 0x04 then some ct1
  else if b = 0x05 then some ct2
  else Option.none

@[simp] theorem fromByte_toByte (t : AgreementType) : fromByte t.toByte = some t := by
  cases t <;> rfl

theorem toByte_inj {t u : AgreementType} (h : t.toByte = u.toByte) : t = u := by
  have := congrArg fromByte h
  simpa using this

end AgreementType

/-- One codeword of an erasure-coded stream. -/
structure Codeword where
  index : UInt16
  data : Arr 32
  deriving DecidableEq

/-- Everything a message carries besides its ciphertext. -/
structure Composite where
  dh : Arr 32
  pn : UInt32
  n : UInt32
  pqEpoch : UInt64
  pqN : UInt64
  agEpoch : UInt64
  agType : AgreementType
  agChunk : Option Codeword
  deriving DecidableEq

/-- The codeword's field: a presence byte, then its full width either way. -/
def encodeChunk : Option Codeword → Bytes
  | none => 0x00 :: List.replicate (2 + chunkBytes) 0
  | some c => 0x01 :: (be16 c.index ++ c.data.toList)

def encodeComposite (h : Composite) : Bytes :=
  [version, typeRatchet] ++ h.dh.toList ++ be32 h.pn ++ be32 h.n ++ be64 h.pqEpoch ++ be64 h.pqN ++
    be64 h.agEpoch ++ [h.agType.toByte] ++ encodeChunk h.agChunk

/-- The codeword, once its bytes are read.  Absent means every byte is zero. -/
def chunkOf (present : UInt8) (index : UInt16) (data : Arr 32) :
    Except DecodeError (Option Codeword) :=
  if present = 0x01 then .ok (some ⟨index, data⟩)
  else if index ≠ 0 ∨ data.toList.any (· ≠ 0) then .error .lengthOverrun
  else .ok none

/-- A composite header, off the front of the input. -/
def decodeComposite : Reader DecodeError Composite := do
  Reader.atLeast .tooShort compositeLen
  let v ← Reader.u8 .tooShort
  Reader.require (v == version) .unknownVersion
  let ty ← Reader.u8 .tooShort
  Reader.require (ty == typeRatchet) .wrongType
  let dh ← Reader.arr .tooShort 32
  Reader.require (Curve.isCanonicalX25519 dh) .wrongType
  let pn ← Reader.u32 .tooShort
  let n ← Reader.u32 .tooShort
  let pqEpoch ← Reader.u64 .tooShort
  let pqN ← Reader.u64 .tooShort
  let agEpoch ← Reader.u64 .tooShort
  let tyByte ← Reader.u8 .tooShort
  let agType ← Reader.lift (match AgreementType.fromByte tyByte with
    | some t => .ok t
    | none => .error .wrongType)
  let present ← Reader.u8 .tooShort
  Reader.require (present == 0x00 || present == 0x01) .wrongType
  let index ← Reader.u16 .tooShort
  let data ← Reader.arr .tooShort 32
  let agChunk ← Reader.lift (chunkOf present index data)
  pure { dh, pn, n, pqEpoch, pqN, agEpoch, agType, agChunk }

/-! ## Messages -/

/-- A decoded ratchet message: the header, and the bytes that followed it. -/
structure DecodedMessage where
  header : Composite
  ciphertext : Bytes
  deriving DecidableEq

def decodeMessage (bytes : Bytes) : Except DecodeError DecodedMessage :=
  match decodeComposite bytes with
  | .ok (header, ciphertext) => .ok { header, ciphertext }
  | .error e => .error e

/-- A ratchet message: header, then the AEAD output. -/
def encodeMessage (header : Composite) (ciphertext : Bytes) : Bytes :=
  encodeComposite header ++ ciphertext

/-- A decoded initial (prekey) message. -/
structure DecodedInitial where
  identity : Bytes
  ephemeral : Bytes
  kemCiphertext : Bytes
  signedPrekeyId : UInt32
  oneTimePrekeyId : UInt32
  kemPrekeyId : UInt32
  message : Bytes
  deriving DecidableEq

/-- The thirty-two bytes after a key's curve byte are their canonical encoding. -/
def canonicalEc (key : Bytes) : Bool :=
  match Arr.ofBytes? 32 (key.drop 1) with
  | some k => Curve.isCanonicalX25519 k
  | none => false

/-- The fields of an initial message; what follows them is its ratchet message. -/
def initialFields : Reader DecodeError DecodedInitial := do
  Reader.atLeast .tooShort 2
  let v ← Reader.u8 .tooShort
  Reader.require (v == version) .unknownVersion
  let ty ← Reader.u8 .tooShort
  Reader.require (ty == typeInitial) .wrongType
  let identity ← Reader.bytes .tooShort ecLen
  let ephemeral ← Reader.bytes .tooShort ecLen
  Reader.require (identity.head? == some encodeEcCurve25519) .wrongType
  Reader.require (ephemeral.head? == some encodeEcCurve25519) .wrongType
  Reader.require (canonicalEc identity) .wrongType
  Reader.require (canonicalEc ephemeral) .wrongType
  let kemLen ← Reader.u32 .tooShort
  let kemCiphertext ← Reader.bytes .lengthOverrun kemLen.toNat
  let signedPrekeyId ← Reader.u32 .tooShort
  let oneTimePrekeyId ← Reader.u32 .tooShort
  let kemPrekeyId ← Reader.u32 .tooShort
  pure { identity, ephemeral, kemCiphertext, signedPrekeyId, oneTimePrekeyId, kemPrekeyId,
         message := [] }

def decodeInitial (bytes : Bytes) : Except DecodeError DecodedInitial :=
  match initialFields bytes with
  | .ok (fields, message) => .ok { fields with message := message }
  | .error e => .error e

def encodeInitial (identity ephemeral kemCiphertext : Bytes)
    (signedPrekeyId oneTimePrekeyId kemPrekeyId : UInt32) (message : Bytes) : Bytes :=
  [version, typeInitial] ++ identity ++ ephemeral ++ lenPrefix kemCiphertext ++
    be32 signedPrekeyId ++ be32 oneTimePrekeyId ++ be32 kemPrekeyId ++ message

inductive MessageType where
  | ratchet
  | initial
  deriving DecidableEq, Repr

/-- A message's kind, from its framing alone. -/
def messageType : Bytes → Option MessageType
  | v :: ty :: _ =>
      if v ≠ version then none
      else if ty = typeRatchet then some .ratchet
      else if ty = typeInitial then some .initial
      else none
  | _ => none

/-- `CONCAT(ad, header)`: the length of `ad`, `ad`, the composite header. -/
def concatAd (ad : Bytes) (header : Composite) : Bytes :=
  lenPrefix ad ++ encodeComposite header

/-! ## The header is recoverable from its bytes -/

@[simp] theorem length_encodeChunk (c : Option Codeword) : (encodeChunk c).length = 35 := by
  cases c <;> simp [encodeChunk, chunkBytes]

@[simp] theorem length_encodeComposite (h : Composite) :
    (encodeComposite h).length = compositeLen := by
  simp [encodeComposite, compositeLen, chunkBytes]

theorem encodeChunk_inj {c d : Option Codeword} (h : encodeChunk c = encodeChunk d) : c = d := by
  cases c with
  | none =>
      cases d with
      | none => rfl
      | some d => simp [encodeChunk] at h
  | some c =>
      cases d with
      | none => simp [encodeChunk] at h
      | some d =>
          simp only [encodeChunk, List.cons.injEq, true_and] at h
          obtain ⟨hindex, hdata⟩ := List.append_inj h (by simp)
          have index := be16_inj hindex
          have data := Arr.toList_inj.1 hdata
          cases c
          cases d
          simp only at index data
          rw [index, data]

/-- **A composite header has one encoding.** -/
theorem encodeComposite_inj {g h : Composite} (same : encodeComposite g = encodeComposite h) :
    g = h := by
  unfold encodeComposite at same
  obtain ⟨same, chunk⟩ := List.append_inj' same (by simp)
  obtain ⟨same, ty⟩ := List.append_inj' same (by simp)
  obtain ⟨same, agEpoch⟩ := List.append_inj' same (by simp)
  obtain ⟨same, pqN⟩ := List.append_inj' same (by simp)
  obtain ⟨same, pqEpoch⟩ := List.append_inj' same (by simp)
  obtain ⟨same, n⟩ := List.append_inj' same (by simp)
  obtain ⟨same, pn⟩ := List.append_inj' same (by simp)
  obtain ⟨-, dh⟩ := List.append_inj same (by simp)
  cases g
  cases h
  simp only [List.cons.injEq, and_true] at ty
  simp only [Composite.mk.injEq]
  exact ⟨Arr.toList_inj.1 dh, be32_inj pn, be32_inj n, be64_inj pqEpoch, be64_inj pqN,
    be64_inj agEpoch, AgreementType.toByte_inj ty, encodeChunk_inj chunk⟩

/-- The associated data and the header it is joined with are recoverable. -/
theorem concatAd_inj {ad ad' : Bytes} {g h : Composite} (same : concatAd ad g = concatAd ad' h) :
    ad = ad' ∧ g = h := by
  obtain ⟨front, header⟩ := List.append_inj' same (by simp)
  exact ⟨(List.append_inj front (by simp)).2, encodeComposite_inj header⟩

/-! ## Round trips -/

/-- A length check the encoding passes is no step of the decoder. -/
theorem reads_atLeast {ε α : Type} {e : ε} {n : Nat} {f : Unit → Reader ε α} {x : Bytes} {a : α}
    (long : n ≤ x.length) (next : Reads (f ()) x a) : Reads (Reader.atLeast e n >>= f) x a := by
  intro rest
  have step : (Reader.atLeast e n >>= f) (x ++ rest) =
      (Reader.atLeast e n (x ++ rest) >>= fun p => f p.1 p.2) := rfl
  rw [step, Reader.atLeast, if_neg (by simp; omega)]
  exact next rest

theorem reads_chunk (c : Option Codeword) :
    ∃ present index data, encodeChunk c = present :: (be16 index ++ data.toList) ∧
      (present == 0x00 || present == 0x01) = true ∧ chunkOf present index data = .ok c := by
  cases c with
  | none => exact ⟨0, 0, Vector.replicate 32 0, by decide, by decide, by decide⟩
  | some c => exact ⟨1, c.index, c.data, rfl, by decide, by simp [chunkOf]⟩

/-- **The header round trip.** -/
theorem reads_composite (h : Composite) (canonical : Curve.isCanonicalX25519 h.dh = true) :
    Reads decodeComposite (encodeComposite h) h := by
  obtain ⟨present, index, data, chunk, flag, decoded⟩ := reads_chunk h.agChunk
  have layout : encodeComposite h = [version] ++ ([typeRatchet] ++ (h.dh.toList ++ (be32 h.pn ++
      (be32 h.n ++ (be64 h.pqEpoch ++ (be64 h.pqN ++ (be64 h.agEpoch ++ ([h.agType.toByte] ++
        ([present] ++ (be16 index ++ data.toList)))))))))) := by
    simp [encodeComposite, chunk]
  refine reads_atLeast (by simp) ?_
  rw [layout]
  refine (Reads.u8 _ version).bind (.bind_nil (.require _ (by decide)) ?_)
  refine (Reads.u8 _ typeRatchet).bind (.bind_nil (.require _ (by decide)) ?_)
  refine (Reads.arr _ h.dh).bind (.bind_nil (.require _ canonical) ?_)
  refine (Reads.u32 _ h.pn).bind ((Reads.u32 _ h.n).bind ?_)
  refine (Reads.u64 _ h.pqEpoch).bind ((Reads.u64 _ h.pqN).bind ((Reads.u64 _ h.agEpoch).bind ?_))
  refine (Reads.u8 _ h.agType.toByte).bind (.bind_nil (Reads.lift (a := h.agType) (by simp)) ?_)
  refine (Reads.u8 _ present).bind (.bind_nil (.require _ flag) ?_)
  refine (Reads.u16 _ index).bind (.bind_last (Reads.arr _ data) ?_)
  exact .bind_nil (Reads.lift decoded) (.of_pure _)

theorem decodeMessage_encodeMessage (h : Composite) (ciphertext : Bytes)
    (canonical : Curve.isCanonicalX25519 h.dh = true) :
    decodeMessage (encodeMessage h ciphertext) = .ok ⟨h, ciphertext⟩ := by
  simp [decodeMessage, encodeMessage, reads_composite h canonical ciphertext]

theorem composite_canonical :
    Ensures decodeComposite fun h => Curve.isCanonicalX25519 h.dh = true := by
  refine .skip fun _ => .skip fun _ => .skip fun _ => .skip fun _ => .skip fun _ => .skip fun dh => ?_
  refine .bind (.require _) fun _ canonical => ?_
  refine .skip fun _ => .skip fun _ => .skip fun _ => .skip fun _ => .skip fun _ => .skip fun _ => ?_
  refine .skip fun _ => .skip fun _ => .skip fun _ => .skip fun _ => .skip fun _ => .skip fun _ => ?_
  exact .of_pure canonical

/-- A header that was read carries a canonical ratchet key. -/
theorem decodeMessage_canonical {message : Bytes} {decoded : DecodedMessage}
    (read : decodeMessage message = .ok decoded) :
    Curve.isCanonicalX25519 decoded.header.dh = true := by
  unfold decodeMessage at read
  split at read
  · rename_i header ciphertext here
    rw [← Except.ok.inj read]
    exact composite_canonical _ _ _ here
  · simp at read

/-- **The initial message round trip**, for keys in their `EncodeEC` forms. -/
theorem decodeInitial_encodeInitial {identity ephemeral : Arr 32} {kemCiphertext : Bytes}
    (signedPrekeyId oneTimePrekeyId kemPrekeyId : UInt32) (message : Bytes)
    (identity_canonical : Curve.isCanonicalX25519 identity = true)
    (ephemeral_canonical : Curve.isCanonicalX25519 ephemeral = true)
    (small : kemCiphertext.length < 2 ^ 32) :
    decodeInitial (encodeInitial (encodeEcCurve25519 :: identity.toList)
        (encodeEcCurve25519 :: ephemeral.toList) kemCiphertext signedPrekeyId oneTimePrekeyId
        kemPrekeyId message) =
      .ok { identity := encodeEcCurve25519 :: identity.toList
            ephemeral := encodeEcCurve25519 :: ephemeral.toList
            kemCiphertext, signedPrekeyId, oneTimePrekeyId, kemPrekeyId, message } := by
  have fields : Reads initialFields
      ([version] ++ ([typeInitial] ++ ((encodeEcCurve25519 :: identity.toList) ++
        ((encodeEcCurve25519 :: ephemeral.toList) ++ (be32 (UInt32.ofNat kemCiphertext.length) ++
          (kemCiphertext ++ (be32 signedPrekeyId ++ (be32 oneTimePrekeyId ++ be32 kemPrekeyId))))))))
      { identity := encodeEcCurve25519 :: identity.toList
        ephemeral := encodeEcCurve25519 :: ephemeral.toList
        kemCiphertext, signedPrekeyId, oneTimePrekeyId, kemPrekeyId, message := [] } := by
    refine reads_atLeast (by simp) ?_
    refine (Reads.u8 _ version).bind (.bind_nil (.require _ (by decide)) ?_)
    refine (Reads.u8 _ typeInitial).bind (.bind_nil (.require _ (by decide)) ?_)
    refine (Reads.bytes _ (by simp [ecLen])).bind ((Reads.bytes _ (by simp [ecLen])).bind ?_)
    refine .bind_nil (.require _ (by simp)) (.bind_nil (.require _ (by simp)) ?_)
    refine .bind_nil (.require _ ?_) (.bind_nil (.require _ ?_) ?_)
    · simp [canonicalEc, identity_canonical]
    · simp [canonicalEc, ephemeral_canonical]
    refine (Reads.u32 _ _).bind ((Reads.bytes _ ?_).bind ?_)
    · rw [UInt32.toNat_ofNat', Nat.mod_eq_of_lt small]
    refine (Reads.u32 _ _).bind ((Reads.u32 _ _).bind ?_)
    exact .bind_last (Reads.u32 _ _) (.of_pure _)
  have read := fields message
  simp only [List.append_assoc] at read
  simp only [decodeInitial, encodeInitial, lenPrefix, List.append_assoc]
  simp only [List.cons_append, List.nil_append] at read ⊢
  rw [read]

/-- An initial message names itself one. -/
theorem messageType_encodeInitial (identity ephemeral kemCiphertext : Bytes)
    (signedPrekeyId oneTimePrekeyId kemPrekeyId : UInt32) (message : Bytes) :
    messageType (encodeInitial identity ephemeral kemCiphertext signedPrekeyId oneTimePrekeyId
      kemPrekeyId message) = some .initial := by
  simp [encodeInitial, messageType, typeRatchet, typeInitial]

theorem messageType_encodeMessage (h : Composite) (ciphertext : Bytes) :
    messageType (encodeMessage h ciphertext) = some .ratchet := by
  simp [encodeMessage, encodeComposite, messageType, typeRatchet]

end Tacenta.Wire
