/-
# Tacenta.Ratchet.Codec -- a classical ratchet at rest

`State::to_bytes` and `State::from_bytes` of `tacenta-ratchet`, over 32-byte
secrets.  The reader refuses every state its own invariant refuses, and
`fromBytes_toBytes` restores every state that satisfies it.
-/
import Tacenta.Format
import Tacenta.Ratchet.Invariant

set_option autoImplicit false

namespace Tacenta.Ratchet

def stateVersion : UInt8 := 0x01

def optionalKeyLen : Nat := 1 + 32
def fixedLen : Nat :=
  1 + 32 + optionalKeyLen + 32 + optionalKeyLen + optionalKeyLen + 4 + 4 + 4 + 4 + 1 + 4
def skippedKeyLen : Nat := 32 + 4 + 4 + 32

inductive RatchetDecodeError where
  | unknownVersion
  | tooShort
  | malformed
  deriving DecidableEq, Repr

/-! ## Writing -/

def pushOptionalKey : Option (Arr 32) → Bytes := writePadded 32 Vector.toList

def LabelSet.toByte : LabelSet → UInt8
  | .tacenta => 0x00

def LabelSet.fromByte (b : UInt8) : Option LabelSet := if b = 0x00 then some .tacenta else none

def SkippedKey.encode (k : SkippedKey Secret) : Bytes :=
  k.dh.toList ++ (be32 k.n ++ (be32 k.storedAt ++ k.key.toList))

def State.toBytes (s : State Secret) : Bytes :=
  [stateVersion] ++ (s.dhsPub.toList ++ (pushOptionalKey s.dhrPub ++ (s.rk.toList ++
    (pushOptionalKey s.cks ++ (pushOptionalKey s.ckr ++ (be32 s.ns ++ (be32 s.nr ++ (be32 s.pn ++
      (be32 s.events ++ ([s.labels.toByte] ++ (be32 (UInt32.ofNat s.skipped.length) ++
        s.skipped.flatMap SkippedKey.encode)))))))))))

/-! ## Reading -/

open RatchetDecodeError

def readOptionalKey : Reader RatchetDecodeError (Option (Arr 32)) :=
  Reader.padded malformed 32 (Reader.arr malformed 32)

def decodeSkippedEntry : Reader RatchetDecodeError (SkippedKey Secret) := do
  let dh ← Reader.arr malformed 32
  let n ← Reader.u32 malformed
  let storedAt ← Reader.u32 malformed
  let key ← Reader.arr malformed 32
  pure { dh, n, storedAt, key }

def readLabels : Reader RatchetDecodeError LabelSet := do
  let b ← Reader.u8 malformed
  Reader.lift (match LabelSet.fromByte b with
    | some labels => .ok labels
    | none => .error malformed)

/-- The fields of a state, out of an input of `len` bytes.  The count is bounded
against the whole input before an entry is read. -/
def decodeState (len : Nat) : Reader RatchetDecodeError (State Secret) := do
  Reader.atLeast tooShort fixedLen
  let version ← Reader.u8 tooShort
  Reader.require (version == stateVersion) unknownVersion
  let dhsPub ← Reader.arr malformed 32
  let dhrPub ← readOptionalKey
  let rk ← Reader.arr malformed 32
  let cks ← readOptionalKey
  let ckr ← readOptionalKey
  let ns ← Reader.u32 malformed
  let nr ← Reader.u32 malformed
  let pn ← Reader.u32 malformed
  let events ← Reader.u32 malformed
  let labels ← readLabels
  let count ← (fun v : UInt32 => v.toNat) <$> Reader.u32 malformed
  Reader.require (decide (count ≤ len / skippedKeyLen)) malformed
  let skipped ← Reader.many decodeSkippedEntry count
  Reader.atEnd malformed
  pure { dhsPub, dhrPub, rk, cks, ckr, ns, nr, pn, skipped, events, labels }

def State.fromBytes (bytes : Bytes) : Except RatchetDecodeError (State Secret) :=
  match (decodeState bytes.length).value bytes with
  | .error e => .error e
  | .ok state => if !state.invariant then .error malformed else .ok state

/-! ## Round trip -/

@[simp] theorem length_skippedEncode (k : SkippedKey Secret) : k.encode.length = skippedKeyLen := by
  simp [SkippedKey.encode, skippedKeyLen]

theorem reads_optionalKey (o : Option (Arr 32)) : Reads readOptionalKey (pushOptionalKey o) o :=
  ReadsAll.padded _ (fun a => by simp) (fun a => .of_reads (Reads.arr _ a)) o

theorem reads_skippedEntry (k : SkippedKey Secret) : Reads decodeSkippedEntry k.encode k :=
  (Reads.arr _ k.dh).bind ((Reads.u32 _ k.n).bind ((Reads.u32 _ k.storedAt).bind
    (.bind_last (Reads.arr _ k.key) (.of_pure _))))

theorem reads_labels (labels : LabelSet) : Reads readLabels [labels.toByte] labels := by
  cases labels
  exact .bind_last (Reads.u8 _ 0x00) fun rest => rfl

theorem length_toBytes (s : State Secret) :
    s.toBytes.length = fixedLen + s.skipped.length * skippedKeyLen := by
  have optional : ∀ o : Option (Arr 32), (pushOptionalKey o).length = 33 := fun o =>
    length_writePadded (by simp) o
  simp only [State.toBytes, List.length_append, optional,
    length_flatMap_width length_skippedEncode, Arr.length_toList, length_be32, List.length_singleton,
    fixedLen, optionalKeyLen]
  omega

theorem decodeState_toBytes {s : State Secret} (bounded : s.skipped.length ≤ maxSkippedStore) :
    ReadsAll (decodeState s.toBytes.length) s.toBytes s := by
  have long : fixedLen ≤ s.toBytes.length := by
    rw [length_toBytes]
    omega
  have fits : s.skipped.length ≤ s.toBytes.length / skippedKeyLen := by
    rw [length_toBytes, Nat.le_div_iff_mul_le (by decide)]
    omega
  have small : s.skipped.length < 2 ^ 32 := by
    simp only [maxSkippedStore] at bounded
    omega
  refine ReadsAll.atLeast long ?_
  generalize s.toBytes.length / skippedKeyLen = bound at fits
  refine .bind (Reads.u8 _ stateVersion) (.bind_nil (.require _ (by decide)) ?_)
  refine .bind (Reads.arr _ s.dhsPub) (.bind (reads_optionalKey s.dhrPub) ?_)
  refine .bind (Reads.arr _ s.rk) (.bind (reads_optionalKey s.cks) ?_)
  refine .bind (reads_optionalKey s.ckr) (.bind (Reads.u32 _ s.ns) ?_)
  refine .bind (Reads.u32 _ s.nr) (.bind (Reads.u32 _ s.pn) (.bind (Reads.u32 _ s.events) ?_))
  refine .bind (reads_labels s.labels) (.bind (Reads.count _ small) ?_)
  refine .bind_nil (.require _ (by simpa using fits)) ?_
  exact .bind_last (Reads.many fun k _ => reads_skippedEntry k) (.atEnd _ (.of_pure _))

/-- **The ratchet round trip.** -/
theorem State.fromBytes_toBytes {s : State Secret} (valid : Valid s) :
    State.fromBytes s.toBytes = .ok s := by
  simp [State.fromBytes, (decodeState_toBytes valid.bounded).value, invariant_iff.2 valid]

theorem State.length_toBytes_lt {s : State Secret} (valid : Valid s) :
    s.toBytes.length < 2 ^ 20 := by
  have := valid.bounded
  simp only [maxSkippedStore] at this
  rw [length_toBytes]
  simp only [fixedLen, optionalKeyLen, skippedKeyLen]
  omega

end Tacenta.Ratchet
