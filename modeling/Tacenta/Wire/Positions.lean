/-
# Tacenta.Wire.Positions -- the wire decoders, position by position

`decode_composite`, `decode_initial` and `decode_bundle` as the crate computes
them: every field's end through `span_end`, every read at an index, on a `usize`
of `w` bits.  Each does what the reader of the same name does, on every input
that a machine with such a `usize` can hold; so no read leaves the input and no
sum wraps, whatever length the input declares.
-/
import Tacenta.Indexed
import Tacenta.Wire.Exact

set_option autoImplicit false

namespace Tacenta.Wire

open Indexed (add asUsize checkedAdd copy index orRefuse refuse require slice zeros)

variable {w : Nat} {bytes : Bytes} {pos n : Nat}

/-- Where the `n` bytes starting at `pos` end, if they fit. -/
def spanEnd (w : Nat) (bytes : Bytes) (pos n : Nat) : Option Nat :=
  match checkedAdd w pos n with
  | some stop => if stop ≤ bytes.length then some stop else none
  | none => none

/-- Four big-endian bytes at `pos`, one index at a time. -/
def be32At (w : Nat) (bytes : Bytes) (pos : Nat) : Indexed DecodeError UInt32 := do
  let b0 ← index bytes pos
  let i1 ← add w pos 1
  let b1 ← index bytes i1
  let i2 ← add w pos 2
  let b2 ← index bytes i2
  let i3 ← add w pos 3
  let b3 ← index bytes i3
  .ok (UInt32.ofNat (ofBe [b0, b1, b2, b3]))

/-- Two big-endian bytes at `pos`. -/
def be16At (w : Nat) (bytes : Bytes) (pos : Nat) : Indexed DecodeError UInt16 := do
  let b0 ← index bytes pos
  let i1 ← add w pos 1
  let b1 ← index bytes i1
  .ok (UInt16.ofNat (ofBe [b0, b1]))

/-- The codeword behind its presence byte. -/
def chunkAt (w : Nat) (bytes : Bytes) (present : UInt8) (chunkIndex : UInt16) :
    Indexed DecodeError (Option Codeword) :=
  if present = 0x01 then do
    let data ← Indexed.arr w 32 bytes 70
    .ok (some ⟨chunkIndex, data⟩)
  else if chunkIndex ≠ 0 then refuse .lengthOverrun
  else do
    let clean ← zeros w bytes 70 chunkBytes
    require clean .lengthOverrun
    .ok none

def decodeCompositeAt (w : Nat) (bytes : Bytes) : Indexed DecodeError (Composite × Bytes) := do
  require (decide (0 + compositeLen ≤ bytes.length)) .tooShort
  let v ← index bytes 0
  require (v == version) .unknownVersion
  let ty ← index bytes 1
  require (ty == typeRatchet) .wrongType
  let dh ← Indexed.arr w 32 bytes 2
  require (Curve.isCanonicalX25519 dh) .wrongType
  let pn ← be32At w bytes 34
  let n ← be32At w bytes 38
  let pqEpoch ← Indexed.u64 w bytes 42
  let pqN ← Indexed.u64 w bytes 50
  let agEpoch ← Indexed.u64 w bytes 58
  let tyByte ← index bytes 66
  let agType ← orRefuse (AgreementType.fromByte tyByte) .wrongType
  let present ← index bytes 67
  require (present == 0x00 || present == 0x01) .wrongType
  let chunkIndex ← be16At w bytes 68
  let agChunk ← chunkAt w bytes present chunkIndex
  let rest ← slice bytes compositeLen bytes.length
  .ok ({ dh, pn, n, pqEpoch, pqN, agEpoch, agType, agChunk }, rest)

def decodeMessageAt (w : Nat) (bytes : Bytes) : Indexed DecodeError DecodedMessage :=
  match decodeCompositeAt w bytes with
  | .ok (header, ciphertext) => .ok { header, ciphertext }
  | .error e => .error e

def decodeInitialAt (w : Nat) (bytes : Bytes) : Indexed DecodeError DecodedInitial := do
  require (decide (0 + 2 ≤ bytes.length)) .tooShort
  let v ← index bytes 0
  require (v == version) .unknownVersion
  let ty ← index bytes 1
  require (ty == typeInitial) .wrongType
  let identityEnd ← orRefuse (spanEnd w bytes 2 ecLen) .tooShort
  let ephemeralEnd ← orRefuse (spanEnd w bytes identityEnd ecLen) .tooShort
  let identityCurve ← index bytes 2
  require (identityCurve == encodeEcCurve25519) .wrongType
  let ephemeralCurve ← index bytes identityEnd
  require (ephemeralCurve == encodeEcCurve25519) .wrongType
  let identityField ← slice bytes 3 identityEnd
  let identityKey ← copy 32 identityField
  require (Curve.isCanonicalX25519 identityKey) .wrongType
  let ephemeralStart ← add w identityEnd 1
  let ephemeralField ← slice bytes ephemeralStart ephemeralEnd
  let ephemeralKey ← copy 32 ephemeralField
  require (Curve.isCanonicalX25519 ephemeralKey) .wrongType
  let kemLenEnd ← orRefuse (spanEnd w bytes ephemeralEnd 4) .tooShort
  let kemLen ← be32At w bytes ephemeralEnd
  let kemEnd ← orRefuse (spanEnd w bytes kemLenEnd (asUsize w kemLen)) .lengthOverrun
  let signedPrekeyEnd ← orRefuse (spanEnd w bytes kemEnd 4) .tooShort
  let oneTimePrekeyEnd ← orRefuse (spanEnd w bytes signedPrekeyEnd 4) .tooShort
  let kemPrekeyEnd ← orRefuse (spanEnd w bytes oneTimePrekeyEnd 4) .tooShort
  let identity ← slice bytes 2 identityEnd
  let ephemeral ← slice bytes identityEnd ephemeralEnd
  let kemCiphertext ← slice bytes kemLenEnd kemEnd
  let signedPrekeyId ← be32At w bytes kemEnd
  let oneTimePrekeyId ← be32At w bytes signedPrekeyEnd
  let kemPrekeyId ← be32At w bytes oneTimePrekeyEnd
  let message ← slice bytes kemPrekeyEnd bytes.length
  .ok { identity, ephemeral, kemCiphertext, signedPrekeyId, oneTimePrekeyId, kemPrekeyId, message }

/-- The one-time prekey's field at `pos`. -/
def oneTimePrekeyAt (w : Nat) (bytes : Bytes) (pos : Nat) :
    Indexed DecodeError (Option (Arr 32)) := do
  let present ← index bytes pos
  let start ← add w pos 1
  if present = 0x00 then do
    let clean ← zeros w bytes start 32
    require clean .lengthOverrun
    .ok none
  else if present = 0x01 then do
    let stop ← add w pos 33
    let field ← slice bytes start stop
    let key ← copy 32 field
    require (Curve.isCanonicalX25519 key) .wrongType
    .ok (some key)
  else refuse .wrongType

def decodeBundleAt (w : Nat) (bytes : Bytes) : Indexed DecodeError WireBundle := do
  require (decide (0 + 2 ≤ bytes.length)) .tooShort
  let v ← index bytes 0
  require (v == version) .unknownVersion
  let ty ← index bytes 1
  require (ty == typeBundle) .wrongType
  require (decide (2 + (bundleKemAt - 2) ≤ bytes.length)) .tooShort
  let kemLen ← be32At w bytes 130
  require (asUsize w kemLen == kemPrekeyLen) .lengthOverrun
  let kemEnd ← orRefuse (spanEnd w bytes bundleKemAt (asUsize w kemLen)) .lengthOverrun
  let signatureEnd ← orRefuse (spanEnd w bytes kemEnd 64) .tooShort
  let keyEnd ← orRefuse (spanEnd w bytes signatureEnd 33) .tooShort
  let oneTimePrekey ← oneTimePrekeyAt w bytes signatureEnd
  let idsEnd ← orRefuse (spanEnd w bytes keyEnd 12) .tooShort
  require (idsEnd == bytes.length) .lengthOverrun
  let identityKey ← Indexed.arr w 32 bytes 2
  let signedPrekey ← Indexed.arr w 32 bytes 34
  require (Curve.isCanonicalX25519 identityKey) .wrongType
  require (Curve.isCanonicalX25519 signedPrekey) .wrongType
  let signedPrekeySignature ← Indexed.arr w 64 bytes 66
  let signatureField ← slice bytes kemEnd signatureEnd
  let kemPrekeySignature ← copy 64 signatureField
  let kemPrekey ← slice bytes bundleKemAt kemEnd
  let signedPrekeyId ← be32At w bytes keyEnd
  let oneTimeAt ← add w keyEnd 4
  let oneTimePrekeyId ← be32At w bytes oneTimeAt
  let kemAt ← add w keyEnd 8
  let kemPrekeyId ← be32At w bytes kemAt
  .ok { identityKey, signedPrekey, signedPrekeySignature, kemPrekey, kemPrekeySignature,
        oneTimePrekey, signedPrekeyId, oneTimePrekeyId, kemPrekeyId }

/-! ## One field -/

theorem spanEnd_inside (addressable : bytes.length < 2 ^ w) (inside : pos + n ≤ bytes.length) :
    spanEnd w bytes pos n = some (pos + n) := by
  simp only [spanEnd, Indexed.checkedAdd_eq (inside.trans_lt addressable), if_pos inside]

theorem spanEnd_outside (outside : bytes.length < pos + n) : spanEnd w bytes pos n = none := by
  unfold spanEnd checkedAdd
  split
  · rename_i stop found
    split at found
    · rw [← Option.some.inj found, if_neg (by omega)]
    · simp at found
  · rfl

theorem asUsize_eq (wide : 32 ≤ w) (v : UInt32) : asUsize w v = v.toNat :=
  Nat.mod_eq_of_lt (v.toNat_lt.trans_le (Nat.pow_le_pow_right (by decide) wide))

/-- The number the four bytes at `pos` spell. -/
def word32 (bytes : Bytes) (pos : Nat) : UInt32 := UInt32.ofNat (ofBe ((bytes.drop pos).take 4))

theorem be32At_eq (addressable : bytes.length < 2 ^ w) (inside : pos + 4 ≤ bytes.length) :
    be32At w bytes pos = .ok (word32 bytes pos) := by
  have four : (bytes.drop pos).take 4 =
      [bytes[pos], bytes[pos + 1], bytes[pos + 2], bytes[pos + 3]] := by
    rw [List.drop_eq_getElem_cons (by omega), List.drop_eq_getElem_cons (by omega),
      List.drop_eq_getElem_cons (by omega), List.drop_eq_getElem_cons (by omega)]
    rfl
  have sums : ∀ k, k < 4 → (add w pos k : Indexed DecodeError Nat) = .ok (pos + k) :=
    fun k small => Indexed.add_eq (by omega)
  have reads : ∀ k (small : k < 4),
      (index bytes (pos + k) : Indexed DecodeError UInt8) = .ok bytes[pos + k] :=
    fun k small => Indexed.index_eq (by omega)
  have first : (index bytes pos : Indexed DecodeError UInt8) = .ok bytes[pos] := reads 0 (by decide)
  simp only [be32At, word32, four, first, sums 1 (by decide), sums 2 (by decide),
    sums 3 (by decide), reads 1 (by decide), reads 2 (by decide), reads 3 (by decide), bind,
    Except.bind]

theorem u32_drop (e : DecodeError) (inside : pos + 4 ≤ bytes.length) :
    Reader.u32 e (bytes.drop pos) = .ok (word32 bytes pos, bytes.drop (pos + 4)) :=
  Reader.map_drop (Reader.bytes_drop e inside)

theorem u32_short (e : DecodeError) (start : pos ≤ bytes.length) (outside : bytes.length < pos + 4) :
    Reader.u32 e (bytes.drop pos) = .error e := by
  have refused := Reader.bytes_short e outside start
  have step : Reader.u32 e (bytes.drop pos) = (Reader.bytes e 4 (bytes.drop pos) >>= fun p =>
    pure (UInt32.ofNat (ofBe p.1), p.2)) := rfl
  rw [step, refused]
  rfl

theorem tracks_be32 (e : DecodeError) (addressable : bytes.length < 2 ^ w)
    (inside : pos + 4 ≤ bytes.length) : Tracks bytes pos 4 (be32At w bytes pos) (Reader.u32 e) :=
  .inl ⟨_, be32At_eq addressable inside, u32_drop e inside⟩

theorem tracks_be16 (e : DecodeError) (addressable : bytes.length < 2 ^ w)
    (inside : pos + 2 ≤ bytes.length) : Tracks bytes pos 2 (be16At w bytes pos) (Reader.u16 e) := by
  have two : (bytes.drop pos).take 2 = [bytes[pos], bytes[pos + 1]] := by
    rw [List.drop_eq_getElem_cons (by omega), List.drop_eq_getElem_cons (by omega)]
    rfl
  have first : (index bytes pos : Indexed DecodeError UInt8) = .ok bytes[pos] :=
    Indexed.index_eq (by omega)
  have sum : (add w pos 1 : Indexed DecodeError Nat) = .ok (pos + 1) := Indexed.add_eq (by omega)
  have second : (index bytes (pos + 1) : Indexed DecodeError UInt8) = .ok bytes[pos + 1] :=
    Indexed.index_eq (by omega)
  refine .inl ⟨UInt16.ofNat (ofBe ((bytes.drop pos).take 2)), ?_, ?_⟩
  · simp only [be16At, two, first, sum, second, bind, Except.bind]
  · exact Reader.map_drop (Reader.bytes_drop e inside)

/-! ## Following the readers -/

variable {β γ : Type} {keep : β × Bytes → γ}

theorem follows_span {e : DecodeError} {f : Nat → Indexed DecodeError γ}
    {g : Bytes → Reader DecodeError β} (addressable : bytes.length < 2 ^ w)
    (start : pos ≤ bytes.length)
    (next : pos + n ≤ bytes.length →
      Follows keep (f (pos + n)) (g ((bytes.drop pos).take n) (bytes.drop (pos + n)))) :
    Follows keep (orRefuse (spanEnd w bytes pos n) e >>= f)
      ((Reader.bytes e n >>= g) (bytes.drop pos)) := by
  by_cases inside : pos + n ≤ bytes.length
  · refine .left (a := pos + n) ?_ (.right (Reader.bytes_drop e inside) (next inside))
    rw [spanEnd_inside addressable inside]
    rfl
  · have short : Reader.bytes e n (bytes.drop pos) = .error e :=
      Reader.bytes_short e (by omega) start
    have outside : (orRefuse (spanEnd w bytes pos n) e : Indexed DecodeError Nat) =
        .error (.refused e) := by
      rw [spanEnd_outside (by omega)]
      rfl
    exact .refused (r := Reader.bytes e n) outside short

theorem follows_span32 {e : DecodeError} {f : Nat → Indexed DecodeError γ}
    {g : UInt32 → Reader DecodeError β} (addressable : bytes.length < 2 ^ w)
    (start : pos ≤ bytes.length)
    (next : pos + 4 ≤ bytes.length →
      Follows keep (f (pos + 4)) (g (word32 bytes pos) (bytes.drop (pos + 4)))) :
    Follows keep (orRefuse (spanEnd w bytes pos 4) e >>= f)
      ((Reader.u32 e >>= g) (bytes.drop pos)) := by
  by_cases inside : pos + 4 ≤ bytes.length
  · refine .left (a := pos + 4) ?_ (.right (u32_drop e inside) (next inside))
    rw [spanEnd_inside addressable inside]
    rfl
  · have outside : (orRefuse (spanEnd w bytes pos 4) e : Indexed DecodeError Nat) =
        .error (.refused e) := by
      rw [spanEnd_outside (by omega)]
      rfl
    exact .refused (r := Reader.u32 e) outside (u32_short e start (by omega))

theorem follows_spanArr {e : DecodeError} {f : Nat → Indexed DecodeError γ}
    {g : Arr n → Reader DecodeError β} (addressable : bytes.length < 2 ^ w)
    (start : pos ≤ bytes.length)
    (next : pos + n ≤ bytes.length → ∀ a : Arr n, (bytes.drop pos).take n = a.toList →
      Follows keep (f (pos + n)) (g a (bytes.drop (pos + n)))) :
    Follows keep (orRefuse (spanEnd w bytes pos n) e >>= f)
      ((Reader.arr e n >>= g) (bytes.drop pos)) := by
  by_cases inside : pos + n ≤ bytes.length
  · obtain ⟨a, field⟩ := Indexed.field_eq inside
    refine .left (a := pos + n) ?_ (.right (Reader.arr_drop e field) (next inside a field))
    rw [spanEnd_inside addressable inside]
    rfl
  · have short : Reader.arr e n (bytes.drop pos) = .error e := by
      have length : ((bytes.drop pos).take n).length ≠ n := by
        rw [List.length_take, List.length_drop]
        omega
      simp only [Reader.arr, Arr.ofBytes?, dif_neg length]
    have outside : (orRefuse (spanEnd w bytes pos n) e : Indexed DecodeError Nat) =
        .error (.refused e) := by
      rw [spanEnd_outside (by omega)]
      rfl
    exact .refused (r := Reader.arr e n) outside short

/-- A span that is only checked. -/
theorem follows_spanCheck {e : DecodeError} {f : Nat → Indexed DecodeError γ}
    {g : Unit → Reader DecodeError β} (addressable : bytes.length < 2 ^ w)
    (start : pos ≤ bytes.length)
    (next : pos + n ≤ bytes.length → Follows keep (f (pos + n)) (g () (bytes.drop pos))) :
    Follows keep (orRefuse (spanEnd w bytes pos n) e >>= f)
      ((Reader.atLeast e n >>= g) (bytes.drop pos)) := by
  have left_ := List.length_drop (i := pos) (l := bytes)
  by_cases inside : pos + n ≤ bytes.length
  · have enough : Reader.atLeast e n (bytes.drop pos) = .ok ((), bytes.drop pos) := by
      rw [Reader.atLeast, if_neg (by omega)]
    refine .left (a := pos + n) ?_ (.right enough (next inside))
    rw [spanEnd_inside addressable inside]
    rfl
  · have short : Reader.atLeast e n (bytes.drop pos) = .error e := by
      rw [Reader.atLeast, if_pos (by omega)]
    have outside : (orRefuse (spanEnd w bytes pos n) e : Indexed DecodeError Nat) =
        .error (.refused e) := by
      rw [spanEnd_outside (by omega)]
      rfl
    exact .refused (r := Reader.atLeast e n) outside short

/-! ## The composite header -/

theorem chunkAt_eq {present : UInt8} {chunkIndex : UInt16} {data : Arr 32}
    (addressable : bytes.length < 2 ^ w) (inside : compositeLen ≤ bytes.length)
    (field : (bytes.drop 70).take 32 = data.toList) :
    chunkAt w bytes present chunkIndex =
      (chunkOf present chunkIndex data).mapError Stop.refused := by
  have long : 102 ≤ bytes.length := inside
  unfold chunkAt chunkOf
  by_cases one : present = 0x01
  · have read : (Indexed.arr w 32 bytes 70 : Indexed DecodeError (Arr 32)) = .ok data :=
      Indexed.arr_eq long (by omega) field
    rw [if_pos one, if_pos one, read]
    rfl
  · rw [if_neg one, if_neg one]
    by_cases zero : chunkIndex = 0
    · have scanned : (zeros w bytes 70 chunkBytes : Indexed DecodeError Bool) =
          .ok (data.toList.all (· == 0)) := by
        rw [← field]
        exact Indexed.zeros_eq long (by simp only [chunkBytes]; omega)
      have same : data.toList.any (· ≠ 0) = !data.toList.all (· == 0) := by
        rw [List.not_all_eq_any_not]
        congr 1
        funext b
        by_cases empty : b = 0 <;> simp [empty]
      rw [if_neg (by simpa using zero), scanned, same]
      cases data.toList.all (· == 0) with
      | true => simp [zero, require, bind, Except.bind, Except.mapError]
      | false => simp [require, refuse, bind, Except.bind, Except.mapError]
    · rw [if_pos zero, if_pos (.inl zero)]
      rfl

/-- **`decode_composite` stays inside its input.** -/
theorem decodeCompositeAt_eq (addressable : bytes.length < 2 ^ w) :
    decodeCompositeAt w bytes = (decodeComposite bytes).mapError Stop.refused := by
  have follows : Follows id (decodeCompositeAt w bytes) (decodeComposite (bytes.drop 0)) := by
    refine .atLeast (Nat.zero_le _) fun long => ?_
    have long : 102 ≤ bytes.length := by simpa [compositeLen, chunkBytes] using long
    refine .track (.u8 _ (by omega)) fun v => .require rfl fun _ => ?_
    refine .track (.u8 _ (by omega)) fun ty => .require rfl fun _ => ?_
    refine .track (.arr _ (by omega) (by omega)) fun dh => .require rfl fun _ => ?_
    refine .track (tracks_be32 _ addressable (by omega)) fun pn => ?_
    refine .track (tracks_be32 _ addressable (by omega)) fun n => ?_
    refine .track (.u64 _ (by omega) (by omega)) fun pqEpoch => ?_
    refine .track (.u64 _ (by omega) (by omega)) fun pqN => ?_
    refine .track (.u64 _ (by omega) (by omega)) fun agEpoch => ?_
    refine .track (.u8 _ (by omega)) fun tyByte => ?_
    refine .lift ?_ fun agType _ => ?_
    · cases AgreementType.fromByte tyByte <;> rfl
    refine .track (.u8 _ (by omega)) fun present => .require rfl fun _ => ?_
    refine .track (tracks_be16 _ addressable (by omega)) fun chunkIndex => ?_
    obtain ⟨data, field⟩ : ∃ data : Arr 32, (bytes.drop 70).take 32 = data.toList :=
      Indexed.field_eq (by omega)
    refine .right (Reader.arr_drop _ field) ?_
    refine .lift (chunkAt_eq addressable (by simpa [compositeLen, chunkBytes] using long) field)
      fun agChunk _ => ?_
    exact .left (Indexed.slice_to_end long) (.of_pure _ rfl)
  rw [follows, List.drop_zero]
  cases decodeComposite bytes <;> rfl

theorem decodeMessageAt_eq (addressable : bytes.length < 2 ^ w) :
    decodeMessageAt w bytes = (decodeMessage bytes).mapError Stop.refused := by
  rw [decodeMessageAt, decodeCompositeAt_eq addressable, decodeMessage]
  cases decodeComposite bytes <;> rfl

/-! ## The initial message -/

/-- The key behind a curve byte. -/
theorem field_tail : ((bytes.drop pos).take (n + 1)).drop 1 = (bytes.drop (pos + 1)).take n := by
  rw [List.drop_take, List.drop_drop, Nat.add_sub_cancel]

theorem field_head (inside : pos < bytes.length) :
    ((bytes.drop pos).take (n + 1)).head? = some bytes[pos] := by
  rw [List.drop_eq_getElem_cons inside, List.take_succ_cons, List.head?_cons]

/-- Both key fields are checked as the reader checks them. -/
theorem canonicalEc_field {k : Arr 32} (field : (bytes.drop (pos + 1)).take 32 = k.toList) :
    canonicalEc ((bytes.drop pos).take ecLen) = Curve.isCanonicalX25519 k := by
  have tail : ((bytes.drop pos).take ecLen).drop 1 = k.toList := field_tail.trans field
  simp only [canonicalEc, tail, Arr.ofBytes?_toList]

theorem slice_key {k : Arr 32} (inside : pos + 1 + 32 ≤ bytes.length)
    (field : (bytes.drop (pos + 1)).take 32 = k.toList) :
    (slice bytes (pos + 1) (pos + ecLen) : Indexed DecodeError Bytes) = .ok k.toList := by
  have width : pos + ecLen = pos + 1 + 32 := rfl
  rw [width, ← field]
  exact Indexed.slice_eq inside

/-- **`decode_initial` stays inside its input.** -/
theorem decodeInitialAt_eq (wide : 32 ≤ w) (addressable : bytes.length < 2 ^ w) :
    decodeInitialAt w bytes = (decodeInitial bytes).mapError Stop.refused := by
  have follows : Follows (fun run : DecodedInitial × Bytes => { run.1 with message := run.2 })
      (decodeInitialAt w bytes) (initialFields (bytes.drop 0)) := by
    refine .atLeast (Nat.zero_le _) fun long => ?_
    refine .track (.u8 _ (by omega)) fun v => .require rfl fun _ => ?_
    refine .track (.u8 _ (by omega)) fun ty => .require rfl fun _ => ?_
    refine follows_span addressable (by omega) fun identityInside => ?_
    refine follows_span addressable identityInside fun ephemeralInside => ?_
    have long : 2 + 33 + 33 ≤ bytes.length := ephemeralInside
    refine .left (Indexed.index_eq (by omega)) ?_
    refine .require (by rw [ecLen, field_head (by omega)]; rfl) fun _ => ?_
    refine .left (Indexed.index_eq (show 2 + 33 < bytes.length by omega)) ?_
    refine .require (by rw [ecLen, field_head (by omega)]; rfl) fun _ => ?_
    obtain ⟨ik, ikField⟩ : ∃ k : Arr 32, (bytes.drop (2 + 1)).take 32 = k.toList :=
      Indexed.field_eq (by omega)
    obtain ⟨ek, ekField⟩ : ∃ k : Arr 32, (bytes.drop (2 + 33 + 1)).take 32 = k.toList :=
      Indexed.field_eq (by omega)
    refine .left (slice_key (by omega) ikField) (.left (Indexed.copy_toList ik) ?_)
    refine .require (canonicalEc_field ikField).symm fun _ => ?_
    refine .left (Indexed.add_eq (show 2 + 33 + 1 < 2 ^ w by omega)) ?_
    refine .left (slice_key (by omega) ekField) (.left (Indexed.copy_toList ek) ?_)
    refine .require (canonicalEc_field ekField).symm fun _ => ?_
    refine follows_span32 addressable (by omega) fun kemLenInside => ?_
    have kemLenInside : 2 + 33 + 33 + 4 ≤ bytes.length := kemLenInside
    refine .left (be32At_eq addressable (by omega)) ?_
    rw [asUsize_eq wide]
    generalize (word32 bytes (2 + ecLen + ecLen)).toNat = kemLen
    refine follows_span addressable kemLenInside fun kemInside => ?_
    refine follows_span32 addressable kemInside fun signedInside => ?_
    refine follows_span32 addressable signedInside fun oneTimeInside => ?_
    refine follows_span32 addressable oneTimeInside fun kemPrekeyInside => ?_
    refine .left (Indexed.slice_eq identityInside) (.left (Indexed.slice_eq ephemeralInside) ?_)
    refine .left (Indexed.slice_eq kemInside) ?_
    refine .left (be32At_eq addressable signedInside) ?_
    refine .left (be32At_eq addressable oneTimeInside) ?_
    refine .left (be32At_eq addressable kemPrekeyInside) ?_
    exact .left (Indexed.slice_to_end kemPrekeyInside) (.of_pure _ rfl)
  rw [follows, List.drop_zero, decodeInitial]
  cases initialFields bytes <;> rfl

/-! ## The bundle -/

theorem tracks_oneTimePrekey (addressable : bytes.length < 2 ^ w) (inside : pos + 33 ≤ bytes.length) :
    Tracks bytes pos 33 (oneTimePrekeyAt w bytes pos) oneTimePrekey := by
  obtain ⟨key, field⟩ : ∃ k : Arr 32, (bytes.drop (pos + 1)).take 32 = k.toList :=
    Indexed.field_eq (by omega)
  have start : (add w pos 1 : Indexed DecodeError Nat) = .ok (pos + 1) := Indexed.add_eq (by omega)
  have stop : (add w pos 33 : Indexed DecodeError Nat) = .ok (pos + 1 + 32) :=
    Indexed.add_eq (by omega)
  have scanned : (zeros w bytes (pos + 1) 32 : Indexed DecodeError Bool) =
      .ok (key.toList.all (· == 0)) := by
    rw [← field]
    exact Indexed.zeros_eq (by omega) (by omega)
  have read : (slice bytes (pos + 1) (pos + 1 + 32) : Indexed DecodeError Bytes) = .ok key.toList := by
    rw [← field]
    exact Indexed.slice_eq (by omega)
  have copied : (copy 32 key.toList : Indexed DecodeError (Arr 32)) = .ok key := Indexed.copy_toList key
  refine .bind (m := 32) (.u8 _ (by omega)) fun present => .left start ?_
  refine .right (m := 0) (Reader.arr_drop _ field) ?_
  by_cases absent : present = 0x00
  · rw [if_pos absent, if_pos absent]
    exact .left scanned (.require fun _ => .of_pure none)
  · rw [if_neg absent, if_neg absent]
    by_cases one : present = 0x01
    · rw [if_pos one, if_pos one]
      exact .left stop (.left read (.left copied (.require fun _ => .of_pure (some key))))
    · rw [if_neg one, if_neg one]
      exact .refuse _

/-- **`decode_bundle` stays inside its input.** -/
theorem decodeBundleAt_eq (wide : 32 ≤ w) (addressable : bytes.length < 2 ^ w) :
    decodeBundleAt w bytes = (decodeBundle bytes).mapError Stop.refused := by
  have follows : Follows Prod.fst (decodeBundleAt w bytes) (bundleFields (bytes.drop 0)) := by
    refine .atLeast (Nat.zero_le _) fun long => ?_
    refine .track (.u8 _ (by omega)) fun v => .require rfl fun _ => ?_
    refine .track (.u8 _ (by omega)) fun ty => .require rfl fun _ => ?_
    refine .atLeast (by omega) fun long => ?_
    have long : 134 ≤ bytes.length := long
    obtain ⟨identityKey, identityField⟩ : ∃ k : Arr 32, (bytes.drop 2).take 32 = k.toList :=
      Indexed.field_eq (by omega)
    obtain ⟨signedPrekey, signedField⟩ : ∃ k : Arr 32, (bytes.drop 34).take 32 = k.toList :=
      Indexed.field_eq (by omega)
    obtain ⟨signature, signatureField⟩ : ∃ k : Arr 64, (bytes.drop 66).take 64 = k.toList :=
      Indexed.field_eq (by omega)
    refine .right (Reader.arr_drop _ identityField) (.right (Reader.arr_drop _ signedField) ?_)
    refine .right (Reader.arr_drop _ signatureField) ?_
    refine .track (tracks_be32 _ addressable (by omega)) fun kemLen => ?_
    rw [asUsize_eq wide]
    refine .require rfl fun _ => ?_
    generalize kemLen.toNat = kemLen
    refine follows_span addressable (by omega) fun kemInside => ?_
    refine follows_spanArr addressable kemInside fun signatureInside kemSignature kemField => ?_
    refine follows_spanCheck addressable signatureInside fun keyInside => ?_
    refine .track (tracks_oneTimePrekey addressable keyInside) fun oneTime => ?_
    refine follows_spanCheck addressable keyInside fun idsInside => ?_
    refine .right (u32_drop _ (by omega)) (.right (u32_drop _ (by omega)) ?_)
    refine .right (u32_drop _ (by omega)) (.atEnd idsInside ?_)
    refine .left (Indexed.arr_eq (by omega) (by omega) identityField) ?_
    refine .left (Indexed.arr_eq (by omega) (by omega) signedField) ?_
    refine .require rfl fun _ => .require rfl fun _ => ?_
    refine .left (Indexed.arr_eq (by omega) (by omega) signatureField) ?_
    refine .left (a := kemSignature.toList) ?_ (.left (Indexed.copy_toList _) ?_)
    · rw [← kemField]
      exact Indexed.slice_eq signatureInside
    refine .left (Indexed.slice_eq kemInside) ?_
    refine .left (be32At_eq addressable (by omega)) (.left (Indexed.add_eq (by omega)) ?_)
    refine .left (be32At_eq addressable (by omega)) (.left (Indexed.add_eq (by omega)) ?_)
    exact .left (be32At_eq addressable (by omega)) (.of_pure _ rfl)
  rw [List.drop_zero] at follows
  exact follows.value

/-! ## The wire formats -/

/-- An input that starts as one format is accepted by no other's decoder. -/
theorem framing_differs {byte byte' : UInt8} (first : bytes[1]? = some byte)
    (second : bytes[1]? = some byte') : byte = byte' :=
  Option.some.inj (first.symm.trans second)

/-- **The wire formats are exact.**  On a `usize` of 32 bits or more and any input
it can measure, no decoder reads outside the input or overflows; each accepts
the encodings of admissible values and nothing else, and no input is accepted by
two of them. -/
theorem wire_formats_exact (wide : 32 ≤ w) (addressable : bytes.length < 2 ^ w) :
    ((decodeMessageAt w bytes).Safe ∧ ∀ v, decodeMessageAt w bytes = .ok v ↔
      v.header.Admissible ∧ encodeMessage v.header v.ciphertext = bytes) ∧
    ((decodeInitialAt w bytes).Safe ∧ ∀ v, decodeInitialAt w bytes = .ok v ↔
      v.Admissible ∧ encodeInitial v.identity v.ephemeral v.kemCiphertext v.signedPrekeyId
        v.oneTimePrekeyId v.kemPrekeyId v.message = bytes) ∧
    ((decodeBundleAt w bytes).Safe ∧ ∀ b, decodeBundleAt w bytes = .ok b ↔
      b.Admissible ∧ encodeBundle b = bytes) ∧
    (∀ v v', decodeMessageAt w bytes = .ok v → decodeInitialAt w bytes ≠ .ok v') ∧
    (∀ v b, decodeMessageAt w bytes = .ok v → decodeBundleAt w bytes ≠ .ok b) ∧
    (∀ v b, decodeInitialAt w bytes = .ok v → decodeBundleAt w bytes ≠ .ok b) := by
  have message := decodeMessageAt_eq addressable
  have initial := decodeInitialAt_eq wide addressable
  have bundle := decodeBundleAt_eq wide addressable
  have isMessage : ∀ v, decodeMessageAt w bytes = .ok v ↔
      v.header.Admissible ∧ encodeMessage v.header v.ciphertext = bytes :=
    fun v => (Indexed.ok_of_eq message v).trans decodeMessage_iff
  have isInitial : ∀ v, decodeInitialAt w bytes = .ok v ↔
      v.Admissible ∧ encodeInitial v.identity v.ephemeral v.kemCiphertext v.signedPrekeyId
        v.oneTimePrekeyId v.kemPrekeyId v.message = bytes :=
    fun v => (Indexed.ok_of_eq initial v).trans decodeInitial_iff
  have isBundle : ∀ b, decodeBundleAt w bytes = .ok b ↔ b.Admissible ∧ encodeBundle b = bytes :=
    fun b => (Indexed.ok_of_eq bundle b).trans decodeBundle_iff
  refine ⟨⟨Indexed.safe_of_eq message, isMessage⟩, ⟨Indexed.safe_of_eq initial, isInitial⟩,
    ⟨Indexed.safe_of_eq bundle, isBundle⟩, ?_, ?_, ?_⟩
  · intro v v' read read'
    have first := framing_encodeMessage v.header v.ciphertext
    have second := framing_encodeInitial v'.identity v'.ephemeral v'.kemCiphertext v'.signedPrekeyId
      v'.oneTimePrekeyId v'.kemPrekeyId v'.message
    rw [((isMessage v).1 read).2] at first
    rw [((isInitial v').1 read').2] at second
    exact absurd (framing_differs first second) (by decide)
  · intro v b read read'
    have first := framing_encodeMessage v.header v.ciphertext
    have second := framing_encodeBundle b
    rw [((isMessage v).1 read).2] at first
    rw [((isBundle b).1 read').2] at second
    exact absurd (framing_differs first second) (by decide)
  · intro v b read read'
    have first := framing_encodeInitial v.identity v.ephemeral v.kemCiphertext v.signedPrekeyId
      v.oneTimePrekeyId v.kemPrekeyId v.message
    have second := framing_encodeBundle b
    rw [((isInitial v).1 read).2] at first
    rw [((isBundle b).1 read').2] at second
    exact absurd (framing_differs first second) (by decide)

/-- A header and two bytes of ciphertext, on a 32-bit target: a message, and nothing
else. -/
theorem wire_formats_exact_short :
    let header : Composite :=
      ⟨Vector.replicate 32 5, 0, 7, 1, 3, 2, .hdr, some ⟨4, Vector.replicate 32 9⟩⟩
    let bytes := encodeMessage header [0x01, 0x02]
    decodeMessageAt 32 bytes = .ok ⟨header, [0x01, 0x02]⟩ ∧
      (∀ v, decodeInitialAt 32 bytes ≠ .ok v) ∧ ∀ b, decodeBundleAt 32 bytes ≠ .ok b := by
  intro header bytes
  have short : bytes.length < 2 ^ 32 := by decide
  have exact_ := @wire_formats_exact 32 bytes (by decide) short
  have read : decodeMessageAt 32 bytes = .ok ⟨header, [0x01, 0x02]⟩ :=
    (exact_.1.2 _).2 ⟨Curve.isCanonicalX25519_iff.1 (by decide), rfl⟩
  exact ⟨read, fun v => exact_.2.2.2.1 _ v read, fun b => exact_.2.2.2.2.1 _ b read⟩

end Tacenta.Wire
