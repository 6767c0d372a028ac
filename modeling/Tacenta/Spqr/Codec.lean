/-
# Tacenta.Spqr.Codec -- a sparse ratchet at rest

`State::to_bytes` and `State::from_bytes` of `tacenta-spqr`, over 32-byte
secrets: `fromBytes_toBytes` restores every state that satisfies the invariant.
-/
import Tacenta.Format
import Tacenta.Spqr.Invariant

set_option autoImplicit false

namespace Tacenta.Spqr

def stateVersion : UInt8 := 0x01

def chainLen : Nat := 1 + 32 + 8
def chainsLen : Nat := 8 + chainLen * 2
def skippedEntryLen : Nat := 8 + 8 + 32
def fixedPrefix : Nat := 1 + 32 + 8 + 1 + 4

inductive SpqrDecodeError where
  | unknownVersion
  | tooShort
  | malformed
  deriving DecidableEq, Repr

/-! ## Writing -/

def Direction.toByte : Direction → UInt8
  | .a2b => 0x00
  | .b2a => 0x01

def Direction.fromByte (b : UInt8) : Option Direction :=
  if b = 0x00 then some .a2b else if b = 0x01 then some .b2a else none

def Chain.encode (c : Chain Secret) : Bytes := c.ck.toList ++ be64 c.n

def pushOptionalChain : Option (Chain Secret) → Bytes := writePadded 40 Chain.encode

def encodeChains (c : UInt64 × Chains Secret) : Bytes :=
  be64 c.1 ++ (pushOptionalChain c.2.send ++ pushOptionalChain c.2.receive)

def Skipped.encode (k : Skipped Secret) : Bytes := be64 k.epoch ++ (be64 k.n ++ k.key.toList)

def State.toBytes (s : State Secret) : Bytes :=
  [stateVersion] ++ (s.rk.toList ++ (be64 s.epoch ++ ([s.direction.toByte] ++
    (be32 (UInt32.ofNat s.chains.length) ++ (s.chains.flatMap encodeChains ++
      (be32 (UInt32.ofNat s.skipped.length) ++ s.skipped.flatMap Skipped.encode))))))

/-! ## Reading -/

open SpqrDecodeError

def readChain : Reader SpqrDecodeError (Chain Secret) := do
  let ck ← Reader.arr malformed 32
  let n ← Reader.u64 malformed
  pure { ck, n }

def decodeChain : Reader SpqrDecodeError (Option (Chain Secret)) :=
  Reader.padded malformed 40 readChain

def decodeChainsEntry : Reader SpqrDecodeError (UInt64 × Chains Secret) := do
  let e ← Reader.u64 malformed
  let send ← decodeChain
  let receive ← decodeChain
  pure (e, { send, receive })

def decodeSkippedEntry : Reader SpqrDecodeError (Skipped Secret) := do
  let epoch ← Reader.u64 malformed
  let n ← Reader.u64 malformed
  let key ← Reader.arr malformed 32
  pure { epoch, n, key }

def readDirection : Reader SpqrDecodeError Direction := do
  let b ← Reader.u8 malformed
  Reader.lift (match Direction.fromByte b with
    | some direction => .ok direction
    | none => .error malformed)

/-- The fields of a state, out of an input of `len` bytes.  Both counts are
bounded against the whole input before an entry is read. -/
def decodeState (len : Nat) : Reader SpqrDecodeError (State Secret) := do
  Reader.atLeast tooShort fixedPrefix
  let version ← Reader.u8 tooShort
  Reader.require (version == stateVersion) unknownVersion
  let rk ← Reader.arr malformed 32
  let epoch ← Reader.u64 malformed
  let direction ← readDirection
  let chainsCount ← (fun v : UInt32 => v.toNat) <$> Reader.u32 malformed
  Reader.require (decide (chainsCount ≤ len / chainsLen)) malformed
  let chains ← Reader.many decodeChainsEntry chainsCount
  let skippedCount ← (fun v : UInt32 => v.toNat) <$> Reader.u32 tooShort
  Reader.require (decide (skippedCount ≤ len / skippedEntryLen)) malformed
  let skipped ← Reader.many decodeSkippedEntry skippedCount
  Reader.atEnd malformed
  pure { rk, epoch, chains, skipped, direction }

def State.fromBytes (bytes : Bytes) : Except SpqrDecodeError (State Secret) :=
  match (decodeState bytes.length).value bytes with
  | .error e => .error e
  | .ok state => if !state.invariant then .error malformed else .ok state

/-! ## Round trip -/

theorem length_chainEncode (c : Chain Secret) : c.encode.length = 40 := by
  simp [Chain.encode]

theorem length_encodeChains (c : UInt64 × Chains Secret) : (encodeChains c).length = chainsLen := by
  have optional : ∀ o : Option (Chain Secret), (pushOptionalChain o).length = 41 := fun o =>
    length_writePadded length_chainEncode o
  simp [encodeChains, optional, chainsLen, chainLen]

theorem length_skippedEncode (k : Skipped Secret) : k.encode.length = skippedEntryLen := by
  simp [Skipped.encode, skippedEntryLen]

theorem length_toBytes (s : State Secret) :
    s.toBytes.length = fixedPrefix + s.chains.length * chainsLen + 4 +
      s.skipped.length * skippedEntryLen := by
  simp only [State.toBytes, List.length_append, length_flatMap_width length_encodeChains,
    length_flatMap_width length_skippedEncode, Arr.length_toList, length_be32, length_be64,
    List.length_singleton, fixedPrefix]
  omega

theorem reads_chainFields (c : Chain Secret) : Reads readChain c.encode c :=
  (Reads.arr _ c.ck).bind (.bind_last (Reads.u64 _ c.n) (.of_pure _))

theorem reads_chain (o : Option (Chain Secret)) : Reads decodeChain (pushOptionalChain o) o :=
  ReadsAll.padded _ length_chainEncode (fun c => .of_reads (reads_chainFields c)) o

theorem reads_chainsEntry (c : UInt64 × Chains Secret) : Reads decodeChainsEntry (encodeChains c) c :=
  (Reads.u64 _ c.1).bind ((reads_chain c.2.send).bind
    (.bind_last (reads_chain c.2.receive) (.of_pure _)))

theorem reads_skippedEntry (k : Skipped Secret) : Reads decodeSkippedEntry k.encode k :=
  (Reads.u64 _ k.epoch).bind ((Reads.u64 _ k.n).bind (.bind_last (Reads.arr _ k.key) (.of_pure _)))

theorem reads_direction (d : Direction) : Reads readDirection [d.toByte] d := by
  cases d
  · exact .bind_last (Reads.u8 _ 0x00) fun rest => rfl
  · exact .bind_last (Reads.u8 _ 0x01) fun rest => rfl

theorem decodeState_toBytes {s : State Secret} (valid : State.Valid s) :
    ReadsAll (decodeState s.toBytes.length) s.toBytes s := by
  have bounded := valid.bounded
  have few := valid.length_chains_le
  simp only [maxSkippedStore] at bounded
  have long : fixedPrefix ≤ s.toBytes.length := by
    rw [length_toBytes]
    omega
  have chainsFit : s.chains.length ≤ s.toBytes.length / chainsLen := by
    rw [length_toBytes, Nat.le_div_iff_mul_le (by decide)]
    omega
  have skippedFit : s.skipped.length ≤ s.toBytes.length / skippedEntryLen := by
    rw [length_toBytes, Nat.le_div_iff_mul_le (by decide)]
    omega
  refine ReadsAll.atLeast long ?_
  generalize s.toBytes.length / chainsLen = chainsBound at chainsFit
  generalize s.toBytes.length / skippedEntryLen = skippedBound at skippedFit
  refine .bind (Reads.u8 _ stateVersion) (.bind_nil (.require _ (by decide)) ?_)
  refine .bind (Reads.arr _ s.rk) (.bind (Reads.u64 _ s.epoch) ?_)
  refine .bind (reads_direction s.direction) (.bind (Reads.count _ (by omega)) ?_)
  refine .bind_nil (.require _ (by simpa using chainsFit)) ?_
  refine .bind (Reads.many fun c _ => reads_chainsEntry c) (.bind (Reads.count _ (by omega)) ?_)
  refine .bind_nil (.require _ (by simpa using skippedFit)) ?_
  exact .bind_last (Reads.many fun k _ => reads_skippedEntry k) (.atEnd _ (.of_pure _))

/-- **The sparse ratchet's round trip.** -/
theorem State.fromBytes_toBytes {s : State Secret} (valid : Valid s) :
    State.fromBytes s.toBytes = .ok s := by
  simp [State.fromBytes, (decodeState_toBytes valid).value, invariant_iff.2 valid]

theorem State.length_toBytes_lt {s : State Secret} (valid : Valid s) :
    s.toBytes.length < 2 ^ 20 := by
  have bounded := valid.bounded
  have few := valid.length_chains_le
  simp only [maxSkippedStore] at bounded
  rw [length_toBytes]
  simp only [fixedPrefix, chainsLen, chainLen, skippedEntryLen]
  omega

end Tacenta.Spqr
