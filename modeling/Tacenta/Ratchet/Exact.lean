/-
# Tacenta.Ratchet.Exact -- a stored classical ratchet has one spelling

`State::from_bytes` of `tacenta-ratchet` as the crate computes it, position by
position (`State.fromBytesAt`), and followed backwards: what it accepts is what
`to_bytes` writes, its invariant holds of what it returns, and no count it reads
takes it out of its input.
-/
import Tacenta.Entries
import Tacenta.Ratchet.Codec

set_option autoImplicit false

namespace Tacenta.Ratchet

open Indexed (add asUsize index orRefuse refuse require slice)
open RatchetDecodeError

/-! ## What is accepted -/

theorem consumes_optionalKey : Consumes readOptionalKey fun used o => used = pushOptionalKey o :=
  .padded_of_width _ (.arr _ 32) fun a => by simp

theorem consumes_skippedEntry : Consumes decodeSkippedEntry fun used k => used = k.encode := by
  refine .bind (.arr _ 32) ?_
  rintro _ dh rfl
  refine .bind (.u32 _) ?_
  rintro _ n rfl
  refine .bind (.u32 _) ?_
  rintro _ storedAt rfl
  refine .bind (.arr _ 32) ?_
  rintro _ key rfl
  exact .of_pure (by simp [SkippedKey.encode])

theorem consumes_labels : Consumes readLabels fun used labels => used = [labels.toByte] := by
  refine .bind (.u8 _) ?_
  rintro _ b rfl
  refine Consumes.lift.mono ?_
  rintro _ labels ⟨rfl, known⟩
  unfold LabelSet.fromByte at known
  by_cases tacenta : b = 0x00
  · rw [if_pos tacenta] at known
    rw [← Except.ok.inj known, tacenta]
    rfl
  · rw [if_neg tacenta] at known
    cases known

theorem exhausts_state (len : Nat) : Exhausts (decodeState len) fun input s => input = s.toBytes := by
  refine .bind (.atLeast _ _) ?_
  rintro _ - rfl
  refine .bind (.u8 _) ?_
  rintro _ version rfl
  refine .bind (.require _) ?_
  rintro _ - ⟨rfl, current⟩
  refine .bind (.arr _ 32) ?_
  rintro _ dhsPub rfl
  refine .bind consumes_optionalKey ?_
  rintro _ dhrPub rfl
  refine .bind (.arr _ 32) ?_
  rintro _ rk rfl
  refine .bind consumes_optionalKey ?_
  rintro _ cks rfl
  refine .bind consumes_optionalKey ?_
  rintro _ ckr rfl
  refine .bind (.u32 _) ?_
  rintro _ ns rfl
  refine .bind (.u32 _) ?_
  rintro _ nr rfl
  refine .bind (.u32 _) ?_
  rintro _ pn rfl
  refine .bind (.u32 _) ?_
  rintro _ events rfl
  refine .bind consumes_labels ?_
  rintro _ labels rfl
  refine .bind (.count _) ?_
  rintro _ count rfl
  refine .bind (.require _) ?_
  rintro _ - ⟨rfl, -⟩
  refine .bind (.many (P := fun _ _ => True) (consumes_skippedEntry.mono fun _ _ h => ⟨h, trivial⟩) _) ?_
  rintro _ skipped ⟨rfl, length, -⟩
  refine .atEnd _ (.of_pure ?_)
  simp [State.toBytes, beq_iff_eq.1 current, length]

/-- **An accepted ratchet is within its invariant and spelled one way.** -/
theorem State.fromBytes_ok {bytes : Bytes} {s : State Secret} (read : State.fromBytes bytes = .ok s) :
    s.invariant = true ∧ s.toBytes = bytes := by
  unfold State.fromBytes at read
  split at read
  · cases read
  · rename_i state decoded
    split at read
    · cases read
    · rename_i inv
      rw [← Except.ok.inj read]
      exact ⟨by simpa using inv, ((exhausts_state _).value decoded).symm⟩

/-! ## Position by position -/

def readOptionalKeyAt (w : Nat) (bytes : Bytes) (pos : Nat) :
    Indexed RatchetDecodeError (Option (Arr 32)) :=
  Indexed.padded w malformed 32 (Indexed.arr w 32 bytes) bytes pos

/-- `SkippedKey::decode`. -/
def SkippedKey.decodeAt (w : Nat) (bytes : Bytes) : Indexed Unit (SkippedKey Secret) := do
  require (bytes.length == skippedKeyLen) ()
  let dh ← Indexed.arr w 32 bytes 0
  let n ← Indexed.u32 w bytes 32
  let storedAt ← Indexed.u32 w bytes 36
  let key ← Indexed.arr w 32 bytes 40
  .ok { dh, n, storedAt, key }

def decodeSkippedEntryAt (w : Nat) (bytes : Bytes) (pos : Nat) : Indexed Unit (SkippedKey Secret) := do
  let stop ← add w pos skippedKeyLen
  require (decide (stop ≤ bytes.length)) ()
  let field ← slice bytes pos stop
  SkippedKey.decodeAt w field

def readLabelsAt (bytes : Bytes) (pos : Nat) : Indexed RatchetDecodeError LabelSet := do
  let b ← index bytes pos
  orRefuse (LabelSet.fromByte b) malformed

def decodeStateAt (w : Nat) (bytes : Bytes) : Indexed RatchetDecodeError (State Secret) := do
  require (decide (0 + fixedLen ≤ bytes.length)) tooShort
  let version ← index bytes 0
  require (version == stateVersion) unknownVersion
  let pos := 1
  let dhsPub ← Indexed.arr w 32 bytes pos
  let pos ← add w pos 32
  let dhrPub ← readOptionalKeyAt w bytes pos
  let pos ← add w pos optionalKeyLen
  let rk ← Indexed.arr w 32 bytes pos
  let pos ← add w pos 32
  let cks ← readOptionalKeyAt w bytes pos
  let pos ← add w pos optionalKeyLen
  let ckr ← readOptionalKeyAt w bytes pos
  let pos ← add w pos optionalKeyLen
  let ns ← Indexed.u32 w bytes pos
  let pos ← add w pos 4
  let nr ← Indexed.u32 w bytes pos
  let pos ← add w pos 4
  let pn ← Indexed.u32 w bytes pos
  let pos ← add w pos 4
  let events ← Indexed.u32 w bytes pos
  let pos ← add w pos 4
  let labels ← readLabelsAt bytes pos
  let pos ← add w pos 1
  let count ← asUsize w <$> Indexed.u32 w bytes pos
  let pos ← add w pos 4
  require (decide (count ≤ bytes.length / skippedKeyLen)) malformed
  let (pos, skipped, ok) ←
    Indexed.entries w skippedKeyLen (decodeSkippedEntryAt w bytes) count pos [] true
  require (ok && pos == bytes.length) malformed
  .ok { dhsPub, dhrPub, rk, cks, ckr, ns, nr, pn, skipped, events, labels }

def State.fromBytesAt (w : Nat) (bytes : Bytes) : Indexed RatchetDecodeError (State Secret) :=
  match decodeStateAt w bytes with
  | .error stop => .error stop
  | .ok state => if !state.invariant then refuse malformed else .ok state

section Positions

variable {w : Nat} {bytes : Bytes} {pos : Nat}

theorem tracks_optionalKey (addressable : Addressable w bytes)
    (inside : pos + optionalKeyLen ≤ bytes.length) :
    Tracks bytes pos optionalKeyLen (readOptionalKeyAt w bytes pos) readOptionalKey := by
  simp only [optionalKeyLen] at inside
  refine (Mirrors.padded inside (addressable.add (by omega) (by decide)) ?_).tracks
  obtain ⟨a, field⟩ : ∃ a : Arr 32, (bytes.drop (pos + 1)).take 32 = a.toList :=
    Indexed.field_eq (by omega)
  refine ⟨a, Indexed.arr_eq (by omega) (addressable.add (by omega) (by decide)) field, ?_⟩
  rw [field]
  exact (ReadsAll.of_reads (Reads.arr _ a)).value

theorem tracks_labels (inside : pos < bytes.length) :
    Tracks bytes pos 1 (readLabelsAt bytes pos) readLabels := by
  refine .bind (m := 0) (.u8 _ inside) fun b => ?_
  cases known : LabelSet.fromByte b with
  | none => exact .inr ⟨malformed, rfl, rfl⟩
  | some labels => exact .inl ⟨labels, rfl, rfl⟩

theorem refuses_skippedEntry : Refuses decodeSkippedEntry malformed :=
  .bind .arr fun _ => .bind .u32 fun _ => .bind .u32 fun _ => .bind .arr fun _ => .of_pure _

/-- One entry, cut out and then decoded. -/
theorem mirrors_skippedEntry (addressable : Addressable w bytes) (start : pos ≤ bytes.length) :
    Mirrors bytes pos skippedKeyLen () malformed (decodeSkippedEntryAt w bytes pos)
      decodeSkippedEntry := by
  refine .left (Indexed.add_eq (addressable.add start (by decide))) ?_
  refine .bounded start le_rfl refuses_skippedEntry
    (consumes_skippedEntry.mono fun _ k spelled => by rw [spelled, length_skippedEncode]) ?_
  intro inside
  refine .left (Indexed.slice_eq inside) ?_
  refine .of_part reads_skippedEntry consumes_skippedEntry length_skippedEncode
    refuses_skippedEntry inside ?_
  have length : ((bytes.drop pos).take skippedKeyLen).length = 72 := by
    rw [List.length_take, List.length_drop]
    simp only [skippedKeyLen] at inside ⊢
    omega
  have part := addressable.part pos skippedKeyLen
  generalize (bytes.drop pos).take skippedKeyLen = field at length part
  have whole : (require (field.length == skippedKeyLen) () : Indexed Unit Unit) = .ok () := by
    rw [length]
    rfl
  refine .left whole ?_
  refine .bind (n := 32) (m := 40) (.arr (by omega) (part.add (by omega) (by decide))) fun dh _ => ?_
  refine .bind (n := 4) (m := 36) (.u32 (by omega) (part.add (by omega) (by decide))) fun n _ => ?_
  refine .bind (n := 4) (m := 32) (.u32 (by omega) (part.add (by omega) (by decide))) fun at_ _ => ?_
  refine .bind (n := 32) (m := 0) (.arr (by omega) (part.add (by omega) (by decide))) fun key end_ => ?_
  exact .of_pure end_ _

/-- **The decoder stays inside its input.** -/
theorem decodeStateAt_eq (addressable : Addressable w bytes) :
    decodeStateAt w bytes = ((decodeState bytes.length).value bytes).mapError Stop.refused := by
  have fits : ∀ {pos k : Nat}, pos ≤ bytes.length → k ≤ 2 ^ 31 → pos + k < 2 ^ w :=
    fun inside small => addressable.add inside small
  have follows : Follows Prod.fst (decodeStateAt w bytes)
      (decodeState bytes.length (bytes.drop 0)) := by
    refine .atLeast (Nat.zero_le _) fun long => ?_
    have long : 185 ≤ bytes.length := by simpa [fixedLen, optionalKeyLen] using long
    have width : optionalKeyLen = 33 := rfl
    refine .track (.u8 _ (by omega)) fun version => .require rfl fun _ => ?_
    refine .track (.arr _ (by omega) (fits (by omega) (by decide))) fun dhsPub => ?_
    refine .add (fits (by omega) (by decide)) ?_
    refine .track (tracks_optionalKey addressable (by omega)) fun dhrPub => ?_
    refine .add (fits (by omega) (by decide)) ?_
    refine .track (.arr _ (by omega) (fits (by omega) (by decide))) fun rk => ?_
    refine .add (fits (by omega) (by decide)) ?_
    refine .track (tracks_optionalKey addressable (by omega)) fun cks => ?_
    refine .add (fits (by omega) (by decide)) ?_
    refine .track (tracks_optionalKey addressable (by omega)) fun ckr => ?_
    refine .add (fits (by omega) (by decide)) ?_
    refine .track (.u32 _ (by omega) (fits (by omega) (by decide))) fun ns => ?_
    refine .add (fits (by omega) (by decide)) ?_
    refine .track (.u32 _ (by omega) (fits (by omega) (by decide))) fun nr => ?_
    refine .add (fits (by omega) (by decide)) ?_
    refine .track (.u32 _ (by omega) (fits (by omega) (by decide))) fun pn => ?_
    refine .add (fits (by omega) (by decide)) ?_
    refine .track (.u32 _ (by omega) (fits (by omega) (by decide))) fun events => ?_
    refine .add (fits (by omega) (by decide)) ?_
    refine .track (tracks_labels (by omega)) fun labels => ?_
    refine .add (fits (by omega) (by decide)) ?_
    refine .track (addressable.count _ (by omega)) fun count => ?_
    refine .add (fits (by omega) (by decide)) (.require rfl fun _ => ?_)
    refine .entries addressable (by decide) (fun _ => mirrors_skippedEntry addressable) (by omega)
      (fun _ _ => rfl) fun skipped inside => ?_
    exact .atEnd inside (.of_pure _ rfl)
  rw [List.drop_zero] at follows
  exact follows.value

theorem State.fromBytesAt_eq (addressable : Addressable w bytes) :
    State.fromBytesAt w bytes = (State.fromBytes bytes).mapError Stop.refused := by
  rw [State.fromBytesAt, decodeStateAt_eq addressable, State.fromBytes]
  cases (decodeState bytes.length).value bytes with
  | error e => rfl
  | ok state =>
      simp only [Except.mapError]
      split <;> rfl

end Positions

/-- **The ratchet's format is exact.** -/
theorem State.format_exact {w : Nat} (wide : 32 ≤ w) :
    ExactFormat w (State.invariant (K := Secret)) State.toBytes (State.fromBytesAt w) :=
  .of_reader wide (fun _ => State.fromBytesAt_eq)
    (fun _ inv => State.fromBytes_toBytes (invariant_iff.1 inv))
    (fun _ inv => (State.length_toBytes_lt (invariant_iff.1 inv)).trans (by decide))
    (fun _ _ => State.fromBytes_ok)

end Tacenta.Ratchet
