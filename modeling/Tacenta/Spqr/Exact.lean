/-
# Tacenta.Spqr.Exact -- a stored sparse ratchet has one spelling

`State::from_bytes` of `tacenta-spqr`, position by position and backwards: two
counted runs of entries, the first of them with optional chains, of which the
crate's decoder accepts exactly what `to_bytes` writes.
-/
import Tacenta.Entries
import Tacenta.Spqr.Codec

set_option autoImplicit false

namespace Tacenta.Spqr

open Indexed (add asUsize index orRefuse refuse require)
open SpqrDecodeError

/-! ## What is accepted -/

theorem consumes_chainFields : Consumes readChain fun used c => used = c.encode := by
  refine .bind (.arr _ 32) ?_
  rintro _ ck rfl
  refine .bind (.u64 _) ?_
  rintro _ n rfl
  exact .of_pure (by simp [Chain.encode])

theorem consumes_chain : Consumes decodeChain fun used o => used = pushOptionalChain o :=
  .padded_of_width _ consumes_chainFields length_chainEncode

theorem consumes_chainsEntry : Consumes decodeChainsEntry fun used c => used = encodeChains c := by
  refine .bind (.u64 _) ?_
  rintro _ e rfl
  refine .bind consumes_chain ?_
  rintro _ send rfl
  refine .bind consumes_chain ?_
  rintro _ receive rfl
  exact .of_pure (by simp [encodeChains])

theorem consumes_skippedEntry : Consumes decodeSkippedEntry fun used k => used = k.encode := by
  refine .bind (.u64 _) ?_
  rintro _ epoch rfl
  refine .bind (.u64 _) ?_
  rintro _ n rfl
  refine .bind (.arr _ 32) ?_
  rintro _ key rfl
  exact .of_pure (by simp [Skipped.encode])

theorem consumes_direction : Consumes readDirection fun used d => used = [d.toByte] := by
  refine .bind (.u8 _) ?_
  rintro _ b rfl
  refine Consumes.lift.mono ?_
  rintro _ d ⟨rfl, known⟩
  unfold Direction.fromByte at known
  by_cases a2b : b = 0x00
  · rw [if_pos a2b] at known
    rw [← Except.ok.inj known, a2b]
    rfl
  · rw [if_neg a2b] at known
    by_cases b2a : b = 0x01
    · rw [if_pos b2a] at known
      rw [← Except.ok.inj known, b2a]
      rfl
    · rw [if_neg b2a] at known
      cases known

theorem exhausts_state (len : Nat) : Exhausts (decodeState len) fun input s => input = s.toBytes := by
  refine .bind (.atLeast _ _) ?_
  rintro _ - rfl
  refine .bind (.u8 _) ?_
  rintro _ version rfl
  refine .bind (.require _) ?_
  rintro _ - ⟨rfl, current⟩
  refine .bind (.arr _ 32) ?_
  rintro _ rk rfl
  refine .bind (.u64 _) ?_
  rintro _ epoch rfl
  refine .bind consumes_direction ?_
  rintro _ direction rfl
  refine .bind (.count _) ?_
  rintro _ chainsCount rfl
  refine .bind (.require _) ?_
  rintro _ - ⟨rfl, -⟩
  refine .bind (.many (P := fun _ _ => True) (consumes_chainsEntry.mono fun _ _ h => ⟨h, trivial⟩) _) ?_
  rintro _ chains ⟨rfl, chainsLength, -⟩
  refine .bind (.count _) ?_
  rintro _ skippedCount rfl
  refine .bind (.require _) ?_
  rintro _ - ⟨rfl, -⟩
  refine .bind (.many (P := fun _ _ => True) (consumes_skippedEntry.mono fun _ _ h => ⟨h, trivial⟩) _) ?_
  rintro _ skipped ⟨rfl, skippedLength, -⟩
  refine .atEnd _ (.of_pure ?_)
  simp [State.toBytes, beq_iff_eq.1 current, chainsLength, skippedLength]

/-- **An accepted sparse ratchet is within its invariant and spelled one way.** -/
theorem State.fromBytes_ok {bytes : Bytes} {s : State Secret} (read : State.fromBytes bytes = .ok s) :
    s.invariant = true ∧ s.toBytes = bytes := by
  unfold State.fromBytes at read
  split at read
  · cases read
  · rename_i state decoded
    split at read
    · cases read
    · rename_i inv
      rw [← Except.ok.inj read]
      exact ⟨by simpa using inv, ((exhausts_state _).value decoded).symm⟩

/-! ## Position by position -/

def readChainAt (w : Nat) (bytes : Bytes) (pos : Nat) : Indexed Unit (Chain Secret) := do
  let ck ← Indexed.arr w 32 bytes pos
  let next ← add w pos 32
  let n ← Indexed.u64 w bytes next
  .ok { ck, n }

def decodeChainAt (w : Nat) (bytes : Bytes) (pos : Nat) : Indexed Unit (Option (Chain Secret)) := do
  let stop ← add w pos chainLen
  require (decide (stop ≤ bytes.length)) ()
  Indexed.padded w () 40 (readChainAt w bytes) bytes pos

def decodeChainsEntryAt (w : Nat) (bytes : Bytes) (pos : Nat) :
    Indexed Unit (UInt64 × Chains Secret) := do
  let stop ← add w pos 8
  require (decide (stop ≤ bytes.length)) ()
  let e ← Indexed.u64 w bytes pos
  let sendAt ← add w pos 8
  let send ← decodeChainAt w bytes sendAt
  let receiveAt ← add w sendAt chainLen
  let receive ← decodeChainAt w bytes receiveAt
  .ok (e, { send, receive })

def decodeSkippedEntryAt (w : Nat) (bytes : Bytes) (pos : Nat) : Indexed Unit (Skipped Secret) := do
  let stop ← add w pos skippedEntryLen
  require (decide (stop ≤ bytes.length)) ()
  let epoch ← Indexed.u64 w bytes pos
  let nAt ← add w pos 8
  let n ← Indexed.u64 w bytes nAt
  let keyAt ← add w pos 16
  let key ← Indexed.arr w 32 bytes keyAt
  .ok { epoch, n, key }

def readDirectionAt (bytes : Bytes) (pos : Nat) : Indexed SpqrDecodeError Direction := do
  let b ← index bytes pos
  orRefuse (Direction.fromByte b) malformed

def decodeStateAt (w : Nat) (bytes : Bytes) : Indexed SpqrDecodeError (State Secret) := do
  require (decide (0 + fixedPrefix ≤ bytes.length)) tooShort
  let version ← index bytes 0
  require (version == stateVersion) unknownVersion
  let pos := 1
  let rk ← Indexed.arr w 32 bytes pos
  let pos ← add w pos 32
  let epoch ← Indexed.u64 w bytes pos
  let pos ← add w pos 8
  let direction ← readDirectionAt bytes pos
  let pos ← add w pos 1
  let chainsCount ← asUsize w <$> Indexed.u32 w bytes pos
  let pos ← add w pos 4
  require (decide (chainsCount ≤ bytes.length / chainsLen)) malformed
  let (pos, chains, chainsOk) ←
    Indexed.entries w chainsLen (decodeChainsEntryAt w bytes) chainsCount pos [] true
  require chainsOk malformed
  let stop ← add w pos 4
  require (decide (stop ≤ bytes.length)) tooShort
  let skippedCount ← asUsize w <$> Indexed.u32 w bytes pos
  let pos ← add w pos 4
  require (decide (skippedCount ≤ bytes.length / skippedEntryLen)) malformed
  let (pos, skipped, skippedOk) ←
    Indexed.entries w skippedEntryLen (decodeSkippedEntryAt w bytes) skippedCount pos [] true
  require skippedOk malformed
  require (pos == bytes.length) malformed
  .ok { rk, epoch, chains, skipped, direction }

def State.fromBytesAt (w : Nat) (bytes : Bytes) : Indexed SpqrDecodeError (State Secret) :=
  match decodeStateAt w bytes with
  | .error stop => .error stop
  | .ok state => if !state.invariant then refuse malformed else .ok state

section Positions

variable {w : Nat} {bytes : Bytes} {pos : Nat}

theorem refuses_chainFields : Refuses readChain malformed :=
  .bind .arr fun _ => .bind .u64 fun _ => .of_pure _

theorem refuses_chain : Refuses decodeChain malformed := .padded refuses_chainFields

theorem refuses_chainsEntry : Refuses decodeChainsEntry malformed :=
  .bind .u64 fun _ => .bind refuses_chain fun _ => .bind refuses_chain fun _ => .of_pure _

theorem refuses_skippedEntry : Refuses decodeSkippedEntry malformed :=
  .bind .u64 fun _ => .bind .u64 fun _ => .bind .arr fun _ => .of_pure _

theorem length_pushOptionalChain (o : Option (Chain Secret)) : (pushOptionalChain o).length = chainLen :=
  length_writePadded length_chainEncode o

/-- The fields of a chain that is there. -/
theorem readChainAt_eq (addressable : Addressable w bytes) (inside : pos + 40 ≤ bytes.length) :
    ∃ c, readChainAt w bytes pos = .ok c ∧
      readChain.value ((bytes.drop pos).take 40) = .ok c := by
  obtain ⟨ck, key⟩ : ∃ a : Arr 32, (bytes.drop pos).take 32 = a.toList :=
    Indexed.field_eq (by omega)
  obtain ⟨word, number⟩ : ∃ a : Arr 8, (bytes.drop (pos + 32)).take 8 = a.toList :=
    Indexed.field_eq (by omega)
  have fits : ∀ {pos k : Nat}, pos ≤ bytes.length → k ≤ 2 ^ 31 → pos + k < 2 ^ w :=
    fun inside small => addressable.add inside small
  have first : (Indexed.arr w 32 bytes pos : Indexed Unit (Arr 32)) = .ok ck :=
    Indexed.arr_eq (by omega) (fits (by omega) (by decide)) key
  have next : (add w pos 32 : Indexed Unit Nat) = .ok (pos + 32) :=
    Indexed.add_eq (fits (by omega) (by decide))
  have second : (Indexed.arr w 8 bytes (pos + 32) : Indexed Unit (Arr 8)) = .ok word :=
    Indexed.arr_eq (by omega) (fits (by omega) (by decide)) number
  have body : (bytes.drop pos).take 40 = ck.toList ++ word.toList := by
    rw [show (40 : Nat) = 32 + 8 from rfl, List.take_add, key, List.drop_drop, number]
  have read : ReadsAll readChain (ck.toList ++ word.toList)
      { ck := ck, n := UInt64.ofNat (ofBe word.toList) } := by
    refine .bind (Reads.arr _ ck) (.bind_last ?_ (.of_pure _))
    exact (Reads.bytes _ (by simp)).map fun b => UInt64.ofNat (ofBe b)
  refine ⟨{ ck := ck, n := UInt64.ofNat (ofBe word.toList) }, ?_, ?_⟩
  · simp only [readChainAt, Indexed.u64, first, next, second, bind, Except.bind]
    rfl
  · rw [body]
    exact read.value

theorem mirrors_chain (addressable : Addressable w bytes) (start : pos ≤ bytes.length) :
    Mirrors bytes pos chainLen () malformed (decodeChainAt w bytes pos) decodeChain := by
  refine .left (Indexed.add_eq (addressable.add start (by decide))) ?_
  refine .bounded start le_rfl refuses_chain
    (consumes_chain.mono fun _ o spelled => by rw [spelled, length_pushOptionalChain]) ?_
  intro inside
  have inside : pos + (1 + 40) ≤ bytes.length := inside
  exact .padded inside (addressable.add start (by decide))
    (readChainAt_eq addressable (by omega))

theorem mirrors_chainsEntry (addressable : Addressable w bytes) (start : pos ≤ bytes.length) :
    Mirrors bytes pos chainsLen () malformed (decodeChainsEntryAt w bytes pos) decodeChainsEntry := by
  refine .left (Indexed.add_eq (addressable.add start (by decide))) ?_
  refine .bounded start (by decide) refuses_chainsEntry
    (consumes_chainsEntry.mono fun _ c spelled => by rw [spelled, length_encodeChains]) ?_
  intro inside
  refine .bind (n := 8) (m := chainLen + chainLen)
    (.u64 inside (addressable.add start (by decide))) fun e _ => ?_
  refine .left (Indexed.add_eq (addressable.add start (by decide))) ?_
  refine .bind (mirrors_chain addressable inside) fun send sent => ?_
  refine .left (Indexed.add_eq (addressable.add inside (by decide))) ?_
  refine .bind (m := 0) (mirrors_chain addressable sent) fun receive received => ?_
  exact .of_pure received _

theorem mirrors_skippedEntry (addressable : Addressable w bytes) (start : pos ≤ bytes.length) :
    Mirrors bytes pos skippedEntryLen () malformed (decodeSkippedEntryAt w bytes pos)
      decodeSkippedEntry := by
  refine .left (Indexed.add_eq (addressable.add start (by decide))) ?_
  refine .bounded start le_rfl refuses_skippedEntry
    (consumes_skippedEntry.mono fun _ k spelled => by rw [spelled, length_skippedEncode]) ?_
  intro inside
  have inside : pos + 48 ≤ bytes.length := inside
  have fits : ∀ {pos k : Nat}, pos ≤ bytes.length → k ≤ 2 ^ 31 → pos + k < 2 ^ w :=
    fun inside small => addressable.add inside small
  refine .bind (n := 8) (m := 40) (.u64 (by omega) (fits start (by decide))) fun epoch _ => ?_
  refine .left (Indexed.add_eq (fits start (by decide))) ?_
  refine .bind (n := 8) (m := 32) (.u64 (by omega) (fits (by omega) (by decide))) fun n _ => ?_
  refine .left (Indexed.add_eq (fits start (by decide))) ?_
  refine .bind (n := 32) (m := 0) (.arr (by omega) (fits (by omega) (by decide))) fun key end_ => ?_
  exact .of_pure end_ _

theorem tracks_direction (inside : pos < bytes.length) :
    Tracks bytes pos 1 (readDirectionAt bytes pos) readDirection := by
  refine .bind (m := 0) (.u8 _ inside) fun b => ?_
  cases known : Direction.fromByte b with
  | none => exact .inr ⟨malformed, rfl, rfl⟩
  | some direction => exact .inl ⟨direction, rfl, rfl⟩

/-- **The decoder stays inside its input.** -/
theorem decodeStateAt_eq (addressable : Addressable w bytes) :
    decodeStateAt w bytes = ((decodeState bytes.length).value bytes).mapError Stop.refused := by
  have fits : ∀ {pos k : Nat}, pos ≤ bytes.length → k ≤ 2 ^ 31 → pos + k < 2 ^ w :=
    fun inside small => addressable.add inside small
  have follows : Follows Prod.fst (decodeStateAt w bytes)
      (decodeState bytes.length (bytes.drop 0)) := by
    refine .atLeast (Nat.zero_le _) fun long => ?_
    have long : 46 ≤ bytes.length := long
    refine .track (.u8 _ (by omega)) fun version => .require rfl fun _ => ?_
    refine .track (.arr _ (by omega) (fits (by omega) (by decide))) fun rk => ?_
    refine .add (fits (by omega) (by decide)) ?_
    refine .track (.u64 _ (by omega) (fits (by omega) (by decide))) fun epoch => ?_
    refine .add (fits (by omega) (by decide)) ?_
    refine .track (tracks_direction (by omega)) fun direction => ?_
    refine .add (fits (by omega) (by decide)) ?_
    refine .track (addressable.count _ (by omega)) fun chainsCount => ?_
    refine .add (fits (by omega) (by decide)) (.require rfl fun _ => ?_)
    refine .entries addressable (by decide) (fun _ => mirrors_chainsEntry addressable) (by omega)
      (fun _ _ => rfl) fun chains inside => ?_
    refine .left rfl (.add (fits inside (by decide)) ?_)
    refine .guarded inside (.map .u32 _)
      ((Consumes.count _).mono fun _ _ spelled => by rw [spelled, length_be32]) fun within => ?_
    refine .track (addressable.count _ within) fun skippedCount => ?_
    refine .add (fits inside (by decide)) (.require rfl fun _ => ?_)
    refine .entries addressable (by decide) (fun _ => mirrors_skippedEntry addressable) within
      (fun _ _ => rfl) fun skipped ends => ?_
    exact .left rfl (.atEnd ends (.of_pure _ rfl))
  rw [List.drop_zero] at follows
  exact follows.value

theorem State.fromBytesAt_eq (addressable : Addressable w bytes) :
    State.fromBytesAt w bytes = (State.fromBytes bytes).mapError Stop.refused := by
  rw [State.fromBytesAt, decodeStateAt_eq addressable, State.fromBytes]
  cases (decodeState bytes.length).value bytes with
  | error e => rfl
  | ok state =>
      simp only [Except.mapError]
      split <;> rfl

end Positions

/-- **The sparse ratchet's format is exact.** -/
theorem State.format_exact {w : Nat} (wide : 32 ≤ w) :
    ExactFormat w (State.invariant (K := Secret)) State.toBytes (State.fromBytesAt w) :=
  .of_reader wide (fun _ => State.fromBytesAt_eq)
    (fun _ inv => State.fromBytes_toBytes (invariant_iff.1 inv))
    (fun _ inv => (State.length_toBytes_lt (invariant_iff.1 inv)).trans (by decide))
    (fun _ _ => State.fromBytes_ok)

end Tacenta.Spqr
