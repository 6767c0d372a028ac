/-
# Tacenta.Store.Codec -- a prekey store on storage

`PrekeyStore::to_bytes` writes the fifth version of the format; `from_bytes`
reads all five, and refuses what it read when it is not canonical, breaks the
store's invariant, or holds a signature that does not verify.  Secrets are the
crate's 32-byte arrays here.

`fromBytes_toBytes`: a store that keeps its invariants is restored as it was.
-/
import Tacenta.Store.Invariant

set_option autoImplicit false

namespace Tacenta.Store

def prekeyStoreVersion : UInt8 := 0x05
def prekeyStoreVersionV4 : UInt8 := 0x04
def prekeyStoreVersionV3 : UInt8 := 0x03
def prekeyStoreVersionV2 : UInt8 := 0x02
def prekeyStoreVersionV1 : UInt8 := 0x01

inductive PrekeyStoreDecodeError where
  | unknownVersion
  | tooShort
  | malformed
  | nonCanonical
  | incoherent
  deriving DecidableEq, Repr

/-! ## Writing -/

def writeCount (n : Nat) : Bytes := be32 (UInt32.ofNat n)

def writeOneTime (entry : CurveEntry) : Bytes := be32 entry.1 ++ entry.2.toList

def writeKemOneTime (entry : KemEntry) : Bytes :=
  be32 entry.1 ++ (lenPrefix entry.2.1.raw ++ entry.2.2.toList)

def writeSeen (entry : UInt32 × Secret) : Bytes := be32 entry.1 ++ entry.2.toList

def writePreviousSigned : Option (Arr 32 × UInt32 × Arr 64) → Bytes
  | none => [0x00]
  | some (secret, id, sig) => [0x01] ++ (secret.toList ++ (be32 id ++ sig.toList))

def writePreviousKem : Option (KeyPair × UInt32 × Arr 64) → Bytes
  | none => [0x00]
  | some (pair, id, sig) => [0x01] ++ (lenPrefix pair.raw ++ (be32 id ++ sig.toList))

/-- Everything up to the replay record. -/
def writeHead (s : PrekeyStore Secret) : Bytes :=
  [prekeyStoreVersion] ++ (s.identityPublic.toList ++ (s.signedPrekeySecret.toList ++
    (be32 s.signedPrekeyId ++ (s.signedPrekeySig.toList ++
      (writeCount s.oneTime.length ++ (s.oneTime.flatMap writeOneTime ++
        (lenPrefix s.kem.raw ++ (be32 s.kemId ++ (s.kemSig.toList ++
          (writeCount s.kemOneTime.length ++ (s.kemOneTime.flatMap writeKemOneTime ++
            be32 s.nextId)))))))))))

def writeReplay (s : PrekeyStore Secret) : Bytes :=
  writeCount s.lastResortSeen.length ++ (s.lastResortSeen.flatMap writeSeen ++
    (writeCount s.legacyLastResortBlocked.length ++ s.legacyLastResortBlocked.flatMap be32))

namespace PrekeyStore

def toBytes (s : PrekeyStore Secret) : Bytes :=
  writeHead s ++ (writeReplay s ++
    (writePreviousSigned s.previousSignedPrekey ++ writePreviousKem s.previousKem))

end PrekeyStore

/-! ## Reading -/

open PrekeyStoreDecodeError (tooShort malformed)

def readCount : Reader PrekeyStoreDecodeError Nat := (fun v => v.toNat) <$> Reader.u32 tooShort

def readOneTime : Reader PrekeyStoreDecodeError CurveEntry := do
  let id ← Reader.u32 tooShort
  let secret ← Reader.arr tooShort 32
  pure (id, secret)

/-- A KEM key pair behind its length. -/
def readPair (p : Primitives Secret) : Reader PrekeyStoreDecodeError KeyPair := do
  let bytes ← Reader.lenPrefixed tooShort
  Reader.lift (match p.kem.keyPairFromBytes bytes with
    | some pair => .ok pair
    | none => .error malformed)

def readKemOneTime (p : Primitives Secret) : Reader PrekeyStoreDecodeError KemEntry := do
  let id ← Reader.u32 tooShort
  let pair ← readPair p
  let sig ← Reader.arr tooShort 64
  pure (id, pair, sig)

def readSeen : Reader PrekeyStoreDecodeError (UInt32 × Secret) := do
  let id ← Reader.u32 tooShort
  let fingerprint ← Reader.arr tooShort 32
  pure (id, fingerprint)

/-- `decode_prekey_head`, as the store it begins. -/
structure DecodedPrekeyHead where
  version : UInt8
  identityPublic : Arr 32
  signedPrekeySecret : Arr 32
  signedPrekeyId : UInt32
  signedPrekeySig : Arr 64
  oneTime : List CurveEntry
  kem : KeyPair
  kemId : UInt32
  kemSig : Arr 64
  kemOneTime : List KemEntry
  nextId : UInt32

def knownVersion (v : UInt8) : Bool :=
  v == prekeyStoreVersion || v == prekeyStoreVersionV4 || v == prekeyStoreVersionV3 ||
    v == prekeyStoreVersionV2 || v == prekeyStoreVersionV1

def decodePrekeyHead (p : Primitives Secret) : Reader PrekeyStoreDecodeError DecodedPrekeyHead := do
  let version ← Reader.u8 tooShort
  Reader.require (knownVersion version) .unknownVersion
  let identityPublic ← Reader.arr tooShort 32
  let signedPrekeySecret ← Reader.arr tooShort 32
  let signedPrekeyId ← Reader.u32 tooShort
  let signedPrekeySig ← Reader.arr tooShort 64
  let oneTimeCount ← readCount
  let oneTime ← Reader.many readOneTime oneTimeCount
  let kem ← readPair p
  let kemId ← Reader.u32 tooShort
  let kemSig ← Reader.arr tooShort 64
  let kemOneTimeCount ← readCount
  let kemOneTime ← Reader.many (readKemOneTime p) kemOneTimeCount
  let nextId ← Reader.u32 tooShort
  pure { version, identityPublic, signedPrekeySecret, signedPrekeyId, signedPrekeySig, oneTime, kem,
         kemId, kemSig, kemOneTime, nextId }

/-- The replay record: absent in the first version, untagged in the next two. -/
def decodeSeen (version : UInt8) (kemId : UInt32) :
    Reader PrekeyStoreDecodeError (List (UInt32 × Secret)) :=
  if version = prekeyStoreVersionV1 then pure []
  else do
    let count ← readCount
    let tagged := version == prekeyStoreVersion || version == prekeyStoreVersionV4
    let ceiling := if tagged then maxLastResortSeen * 2 else maxLastResortSeen
    Reader.require (decide (count ≤ ceiling)) malformed
    if tagged then Reader.many readSeen count
    else Reader.many ((fun fingerprint => (kemId, fingerprint)) <$> Reader.arr tooShort 32) count

def decodeBlocked (version : UInt8) : Reader PrekeyStoreDecodeError (List UInt32) :=
  if version = prekeyStoreVersion then do
    let count ← readCount
    Reader.require (decide (count ≤ 2)) malformed
    Reader.many (Reader.u32 tooShort) count
  else pure []

/-- A presence byte, then the field when it is present. -/
def readOptional {α : Type} (field : Reader PrekeyStoreDecodeError α) :
    Reader PrekeyStoreDecodeError (Option α) := do
  let present ← Reader.u8 tooShort
  if present = 0x00 then pure none
  else if present = 0x01 then some <$> field
  else Reader.refuse malformed

def readPreviousSigned : Reader PrekeyStoreDecodeError (Arr 32 × UInt32 × Arr 64) := do
  let secret ← Reader.arr tooShort 32
  let id ← Reader.u32 tooShort
  let sig ← Reader.arr tooShort 64
  pure (secret, id, sig)

def readPreviousKem (p : Primitives Secret) :
    Reader PrekeyStoreDecodeError (KeyPair × UInt32 × Arr 64) := do
  let pair ← readPair p
  let id ← Reader.u32 tooShort
  let sig ← Reader.arr tooShort 64
  pure (pair, id, sig)

def decodePreviousPrekeys (p : Primitives Secret) (version : UInt8) :
    Reader PrekeyStoreDecodeError
      (Option (Arr 32 × UInt32 × Arr 64) × Option (KeyPair × UInt32 × Arr 64)) :=
  if version = prekeyStoreVersion ∨ version = prekeyStoreVersionV4 ∨
      version = prekeyStoreVersionV3 then do
    let signed ← readOptional readPreviousSigned
    let kem ← readOptional (readPreviousKem p)
    pure (signed, kem)
  else pure (none, none)

/-- `sort_unstable`, then `dedup`. -/
def sortDedup (l : List UInt32) : List UInt32 :=
  (l.mergeSort fun a b => decide (a ≤ b)).eraseReps

/-- The identifiers that fail closed: those stored, and every live key of a
store whose record is in an older format. -/
def migratedBlocked (version : UInt8) (seen : List (UInt32 × Secret)) (blocked : List UInt32)
    (kemId : UInt32) (previousKem : Option (KeyPair × UInt32 × Arr 64)) : List UInt32 :=
  sortDedup (if version ≠ prekeyStoreVersion ∧ seen ≠ [] then
    blocked ++ [kemId] ++ (previousKem.map fun r => r.2.1).toList
  else blocked)

/-- The fields of a store, read to the end of the input. -/
def decodeStore (p : Primitives Secret) :
    Reader PrekeyStoreDecodeError (UInt8 × PrekeyStore Secret) := do
  let head ← decodePrekeyHead p
  let seen ← decodeSeen head.version head.kemId
  let blocked ← decodeBlocked head.version
  let previous ← decodePreviousPrekeys p head.version
  Reader.atEnd malformed
  pure (head.version,
    { identityPublic := head.identityPublic
      signedPrekeySecret := head.signedPrekeySecret
      signedPrekeyId := head.signedPrekeyId
      signedPrekeySig := head.signedPrekeySig
      oneTime := head.oneTime
      kem := head.kem
      kemId := head.kemId
      kemSig := head.kemSig
      kemOneTime := head.kemOneTime
      previousSignedPrekey := previous.1
      previousKem := previous.2
      nextId := head.nextId
      lastResortSeen := seen
      legacyLastResortBlocked := migratedBlocked head.version seen blocked head.kemId previous.2 })

namespace PrekeyStore

/-- Decode a store persisted by `to_bytes`. -/
def fromBytes (p : Primitives Secret) (bytes : Bytes) :
    Except PrekeyStoreDecodeError (PrekeyStore Secret) :=
  match (decodeStore p).value bytes with
  | .error e => .error e
  | .ok (version, store) =>
      if version = prekeyStoreVersion ∧ store.toBytes ≠ bytes then .error .nonCanonical
      else if !store.invariant p then .error .malformed
      else if !store.signaturesVerify p then .error .incoherent
      else .ok store

end PrekeyStore

/-! ## Round trip -/

variable {p : Primitives Secret}

theorem reads_oneTime (entry : CurveEntry) : Reads readOneTime (writeOneTime entry) entry :=
  (Reads.u32 _ entry.1).bind (.bind_last (Reads.arr _ entry.2) (.of_pure _))

theorem reads_pair {pair : KeyPair} (valid : p.kem.keyPairFromBytes pair.raw = some pair)
    (small : pair.raw.length < 2 ^ 32) : Reads (readPair p) (lenPrefix pair.raw) pair := by
  refine .bind_last (Reads.lenPrefixed _ small) ?_
  intro rest
  simp [Reader.lift, valid]

theorem reads_kemOneTime {entry : KemEntry}
    (valid : p.kem.keyPairFromBytes entry.2.1.raw = some entry.2.1)
    (small : entry.2.1.raw.length < 2 ^ 32) :
    Reads (readKemOneTime p) (writeKemOneTime entry) entry :=
  (Reads.u32 _ entry.1).bind ((reads_pair valid small).bind
    (.bind_last (Reads.arr _ entry.2.2) (.of_pure _)))

theorem reads_seen (entry : UInt32 × Secret) : Reads readSeen (writeSeen entry) entry :=
  (Reads.u32 _ entry.1).bind (.bind_last (Reads.arr _ entry.2) (.of_pure _))

theorem reads_previousSigned (previous : Option (Arr 32 × UInt32 × Arr 64)) :
    Reads (readOptional readPreviousSigned) (writePreviousSigned previous) previous := by
  cases previous with
  | none => exact .bind_last (Reads.u8 _ 0x00) (.of_pure none)
  | some r =>
      refine (Reads.u8 _ 0x01).bind ?_
      refine Reads.map (r := readPreviousSigned) ?_ some
      exact (Reads.arr _ r.1).bind ((Reads.u32 _ r.2.1).bind
        (.bind_last (Reads.arr _ r.2.2) (.of_pure _)))

theorem reads_previousKem {previous : Option (KeyPair × UInt32 × Arr 64)}
    (valid : ∀ r ∈ previous, p.kem.keyPairFromBytes r.1.raw = some r.1)
    (small : ∀ r ∈ previous, r.1.raw.length < 2 ^ 32) :
    Reads (readOptional (readPreviousKem p)) (writePreviousKem previous) previous := by
  cases previous with
  | none => exact .bind_last (Reads.u8 _ 0x00) (.of_pure none)
  | some r =>
      refine (Reads.u8 _ 0x01).bind ?_
      refine Reads.map (r := readPreviousKem p) ?_ some
      exact (reads_pair (valid r rfl) (small r rfl)).bind ((Reads.u32 _ r.2.1).bind
        (.bind_last (Reads.arr _ r.2.2) (.of_pure _)))

theorem eraseReps_of_pairwise {l : List UInt32} (distinct : l.Pairwise (· ≠ ·)) :
    l.eraseReps = l := by
  have loop : ∀ (l : List UInt32) (a : UInt32) (acc : List UInt32), (a :: l).Pairwise (· ≠ ·) →
      List.eraseRepsBy.loop (· == ·) a l acc = acc.reverse ++ a :: l := by
    intro l
    induction l with
    | nil => intro a acc _; simp [List.eraseRepsBy.loop]
    | cons b rest ih =>
        intro a acc distinct
        have ne : (a == b) = false := by
          have := List.rel_of_pairwise_cons distinct (List.mem_cons_self)
          simpa using this
        rw [List.eraseRepsBy.loop, ne]
        simp only
        rw [ih b (a :: acc) (List.Pairwise.of_cons distinct)]
        simp
  cases l with
  | nil => rfl
  | cons a rest => simpa [List.eraseReps, List.eraseRepsBy] using loop rest a [] distinct

/-- Sorting and removing repeats leaves a sorted list without repeats alone. -/
theorem sortDedup_of_sorted {l : List UInt32} (sorted : l.Pairwise (· < ·)) : sortDedup l = l := by
  have weak : l.Pairwise fun a b => decide (a ≤ b) = true := sorted.imp fun h => by
    simpa using UInt32.le_of_lt h
  rw [sortDedup, List.mergeSort_of_pairwise weak]
  exact eraseReps_of_pairwise (sorted.imp fun h => UInt32.ne_of_lt h)

/-- What a store must be to be restored as it was: its own invariants, key pairs
their own reader accepts, and the marks of an older record in order. -/
structure Restorable (p : Primitives Secret) (s : PrekeyStore Secret) : Prop where
  valid : Valid p s
  signed : Signed p s
  kem : p.kem.keyPairFromBytes s.kem.raw = some s.kem
  kemOneTime : ∀ entry ∈ s.kemOneTime, p.kem.keyPairFromBytes entry.2.1.raw = some entry.2.1
  previousKem : ∀ r ∈ s.previousKem, p.kem.keyPairFromBytes r.1.raw = some r.1
  blocked_sorted : s.legacyLastResortBlocked.Pairwise (· < ·)

theorem length_of_keyPairFromBytes {kem : MlKem Secret} {bytes : Bytes} {pair : KeyPair}
    (valid : kem.keyPairFromBytes bytes = some pair) : bytes.length = 4736 := by
  unfold MlKem.keyPairFromBytes at valid
  split at valid
  · simp at valid
  · rename_i h
    simpa [MlKem.privateKeyLen, MlKem.publicKeyLen] using h

/-- Pairwise distinct words are fewer than `2 ^ 32`, and fewer still when one
word bounds them. -/
theorem length_lt_of_distinct {l : List UInt32} {bound : UInt32} (distinct : l.Pairwise (· ≠ ·))
    (below : ∀ a ∈ l, a < bound) : l.length < 2 ^ 32 := by
  have nodup : (l.map UInt32.toNat).Nodup := by
    rw [List.nodup_map_iff fun a b h => UInt32.toNat_inj.1 h]
    exact distinct
  have subset : l.map UInt32.toNat ⊆ List.range bound.toNat := by
    intro n member
    obtain ⟨a, ha, rfl⟩ := List.mem_map.1 member
    rw [List.mem_range]
    exact UInt32.lt_iff_toNat_lt.1 (below a ha)
  have := (List.subperm_of_subset nodup subset).length_le
  rw [List.length_map, List.length_range] at this
  have := bound.toNat_lt
  omega

theorem Valid.length_lt {s : PrekeyStore Secret} (valid : Valid p s) :
    s.oneTime.length < 2 ^ 32 ∧ s.kemOneTime.length < 2 ^ 32 := by
  have total := length_lt_of_distinct valid.distinct fun a ha => (valid.numbered a ha).2
  simp only [PrekeyStore.ids, List.length_append, List.length_map] at total
  omega

/-- Every record entry is tagged with one of two keys, each within its budget. -/
theorem Valid.length_seen_le {s : PrekeyStore Secret} (valid : Valid p s) :
    s.lastResortSeen.length ≤ maxLastResortSeen * 2 := by
  obtain ⟨current, previous⟩ := (withinBudget_iff valid.tagged).1 valid.budget
  have split : s.lastResortSeen.length = _ := List.length_eq_countP_add_countP
    fun entry : UInt32 × Secret => decide (entry.1 = s.kemId)
  have rest : s.lastResortSeen.countP (fun entry => !decide (entry.1 = s.kemId)) ≤
      s.lastResortSeen.countP fun entry =>
        decide (entry.1 ≠ s.kemId) && decide (some entry.1 = s.previousKemId) := by
    refine List.countP_mono_left fun entry member other => ?_
    have := valid.tagged entry member
    simp only [PrekeyStore.isLastResort, Bool.or_eq_true, decide_eq_true_eq] at this
    simp only [Bool.not_eq_true', decide_eq_false_iff_not] at other
    simp [other, this.resolve_left other]
  have both : s.lastResortSeen.countP (fun entry => decide ¬ decide (entry.1 = s.kemId) = true) =
      s.lastResortSeen.countP fun entry => !decide (entry.1 = s.kemId) := by simp
  rw [both] at split
  omega

theorem Valid.length_blocked_le {s : PrekeyStore Secret} (valid : Valid p s) :
    s.legacyLastResortBlocked.length ≤ 2 := by
  have subset : s.legacyLastResortBlocked ⊆ s.kemId :: s.previousKemId.toList := by
    intro id member
    have := valid.blocked_live id member
    simp only [PrekeyStore.isLastResort, Bool.or_eq_true, decide_eq_true_eq] at this
    rcases this with h | h
    · simp [h]
    · simp [← h]
  have := (List.subperm_of_subset valid.blocked_once subset).length_le
  have short : s.previousKemId.toList.length ≤ 1 := by cases s.previousKemId <;> simp
  simp only [List.length_cons] at this
  omega

theorem reads_head {s : PrekeyStore Secret} (ok : Restorable p s) :
    Reads (decodePrekeyHead p) (writeHead s)
      { version := prekeyStoreVersion, identityPublic := s.identityPublic
        signedPrekeySecret := s.signedPrekeySecret, signedPrekeyId := s.signedPrekeyId
        signedPrekeySig := s.signedPrekeySig, oneTime := s.oneTime, kem := s.kem, kemId := s.kemId
        kemSig := s.kemSig, kemOneTime := s.kemOneTime, nextId := s.nextId } := by
  have lengths := ok.valid.length_lt
  have small : ∀ pair : KeyPair, p.kem.keyPairFromBytes pair.raw = some pair →
      pair.raw.length < 2 ^ 32 := fun pair valid => by
    rw [length_of_keyPairFromBytes valid]
    norm_num
  refine (Reads.u8 _ prekeyStoreVersion).bind (.bind_nil (.require _ (by decide)) ?_)
  refine (Reads.arr _ s.identityPublic).bind ((Reads.arr _ s.signedPrekeySecret).bind ?_)
  refine (Reads.u32 _ s.signedPrekeyId).bind ((Reads.arr _ s.signedPrekeySig).bind ?_)
  refine (Reads.count _ lengths.1).bind ((Reads.many fun e _ => reads_oneTime e).bind ?_)
  refine (reads_pair ok.kem (small _ ok.kem)).bind ?_
  refine (Reads.u32 _ s.kemId).bind ((Reads.arr _ s.kemSig).bind ?_)
  refine (Reads.count _ lengths.2).bind ((Reads.many fun e he =>
    reads_kemOneTime (ok.kemOneTime e he) (small _ (ok.kemOneTime e he))).bind ?_)
  exact .bind_last (Reads.u32 _ s.nextId) (.of_pure _)

theorem reads_replay {s : PrekeyStore Secret} (ok : Restorable p s) :
    Reads (decodeSeen prekeyStoreVersion s.kemId)
        (writeCount s.lastResortSeen.length ++ s.lastResortSeen.flatMap writeSeen)
        s.lastResortSeen ∧
      Reads (decodeBlocked prekeyStoreVersion)
        (writeCount s.legacyLastResortBlocked.length ++ s.legacyLastResortBlocked.flatMap be32)
        s.legacyLastResortBlocked := by
  have seen := ok.valid.length_seen_le
  have blocked := ok.valid.length_blocked_le
  constructor
  · refine (Reads.count _ (by simp only [maxLastResortSeen] at seen; omega)).bind ?_
    refine .bind_nil (.require _ (by simpa using seen)) ?_
    exact Reads.many fun e _ => reads_seen e
  · refine (Reads.count _ (by omega)).bind ?_
    refine .bind_nil (.require _ (by simpa using blocked)) ?_
    exact Reads.many fun e _ => Reads.u32 _ e

/-- Restoring what was written yields the version and the store. -/
theorem decodeStore_toBytes {s : PrekeyStore Secret} (ok : Restorable p s) :
    (decodeStore p).value s.toBytes = .ok (prekeyStoreVersion, s) := by
  have small : ∀ r ∈ s.previousKem, r.1.raw.length < 2 ^ 32 := fun r hr => by
    rw [length_of_keyPairFromBytes (ok.previousKem r hr)]
    norm_num
  obtain ⟨seen, blocked⟩ := reads_replay ok
  have previous : Reads (decodePreviousPrekeys p prekeyStoreVersion)
      (writePreviousSigned s.previousSignedPrekey ++ writePreviousKem s.previousKem)
      (s.previousSignedPrekey, s.previousKem) :=
    (reads_previousSigned s.previousSignedPrekey).bind
      (.bind_last (reads_previousKem ok.previousKem small) (.of_pure _))
  have layout : s.toBytes = writeHead s ++
      ((writeCount s.lastResortSeen.length ++ s.lastResortSeen.flatMap writeSeen) ++
        ((writeCount s.legacyLastResortBlocked.length ++ s.legacyLastResortBlocked.flatMap be32) ++
          (writePreviousSigned s.previousSignedPrekey ++ writePreviousKem s.previousKem))) := by
    simp [PrekeyStore.toBytes, writeReplay]
  have migrated : migratedBlocked prekeyStoreVersion s.lastResortSeen s.legacyLastResortBlocked
      s.kemId s.previousKem = s.legacyLastResortBlocked := by
    simp [migratedBlocked, sortDedup_of_sorted ok.blocked_sorted]
  rw [layout]
  refine ReadsAll.value (ReadsAll.bind (reads_head ok) (ReadsAll.bind seen (ReadsAll.bind blocked
    (ReadsAll.bind_last previous (ReadsAll.atEnd _ ?_)))))
  simp only [migrated]
  exact ReadsAll.of_pure _

/-- **The store round trip.** -/
theorem fromBytes_toBytes {s : PrekeyStore Secret} (ok : Restorable p s) :
    PrekeyStore.fromBytes p s.toBytes = .ok s := by
  simp [PrekeyStore.fromBytes, decodeStore_toBytes ok, invariant_iff.2 ok.valid,
    signaturesVerify_iff.2 ok.signed]

end Tacenta.Store
