/-
# Tacenta.Triple.Exact -- a stored Triple Ratchet has one spelling

`State::from_bytes` of `tacenta-triple`, position by position: two
length-prefixed fields, each behind a sum that is checked before it is used, and
each handed to a ratchet's own decoder.  With the two ratchets' formats this
makes the composed one exact (`ratchet_storage_exact`).
-/
import Tacenta.Ratchet.Exact
import Tacenta.Sample
import Tacenta.Spqr.Exact
import Tacenta.Triple.Codec

set_option autoImplicit false

namespace Tacenta.Triple

open Indexed (asUsize checkedAdd copy index orRefuse otherwise refuse require slice)
open TripleDecodeError

/-! ## What is accepted -/

/-- A field whose own decoder accepts one spelling of each value. -/
theorem consumes_nested {ε ε' α : Type} {e : ε} {f : ε' → ε} {decode : Bytes → Except ε' α}
    {write : α → Bytes} (spelled : ∀ l a, decode l = .ok a → write a = l) :
    Consumes (Reader.nested e fun field => (decode field).mapError f) fun used a =>
      used = lenPrefix (write a) := by
  refine (Consumes.nested _ _).mono ?_
  rintro _ a ⟨l, rfl, decoded⟩
  rw [spelled l a (mapError_eq_ok.1 decoded)]

theorem exhausts_state : Exhausts decodeState fun input s => input = s.toBytes := by
  refine .bind (.u8 _) ?_
  rintro _ version rfl
  refine .bind (.require _) ?_
  rintro _ - ⟨rfl, current⟩
  refine .bind (consumes_nested fun _ _ read => (Ratchet.State.fromBytes_ok read).2) ?_
  rintro _ classical rfl
  refine .bind (consumes_nested fun _ _ read => (Spqr.State.fromBytes_ok read).2) ?_
  rintro _ postQuantum rfl
  refine .atEnd _ (.of_pure ?_)
  simp [State.toBytes, beq_iff_eq.1 current]

/-- **An accepted Triple Ratchet is within its invariant and spelled one way.** -/
theorem State.fromBytes_ok {bytes : Bytes} {s : State Secret} (read : State.fromBytes bytes = .ok s) :
    s.invariant = true ∧ s.toBytes = bytes := by
  unfold State.fromBytes at read
  split at read
  · cases read
  · rename_i state decoded
    split at read
    · cases read
    · rename_i inv
      rw [← Except.ok.inj read]
      exact ⟨by simpa using inv, (exhausts_state.value decoded).symm⟩

/-! ## Position by position -/

/-- The length-prefixed field at `pos` and the position just past it, both sums
through `checked_add`. -/
def takeLenPrefixed (w : Nat) (bytes : Bytes) (pos : Nat) : Indexed Unit (Bytes × Nat) := do
  let start ← orRefuse (checkedAdd w pos 4) ()
  require (decide (start ≤ bytes.length)) ()
  let lenBytes ← slice bytes pos start
  let lenBytes : Arr 4 ← copy 4 lenBytes
  let len := asUsize w (UInt32.ofNat (ofBe lenBytes.toList))
  let stop ← orRefuse (checkedAdd w start len) ()
  require (decide (stop ≤ bytes.length)) ()
  let field ← slice bytes start stop
  .ok (field, stop)

def decodeStateAt (w : Nat) (bytes : Bytes) : Indexed TripleDecodeError (State Secret) := do
  require (!bytes.isEmpty) tooShort
  let version ← index bytes 0
  require (version == stateVersion) unknownVersion
  let (classicalBytes, pos) ← otherwise (takeLenPrefixed w bytes 1) tooShort
  let classical ← otherwise (Ratchet.State.fromBytesAt w classicalBytes) malformed
  let (pqBytes, pos) ← otherwise (takeLenPrefixed w bytes pos) tooShort
  let postQuantum ← otherwise (Spqr.State.fromBytesAt w pqBytes) malformed
  require (pos == bytes.length) malformed
  .ok { classical, postQuantum }

def State.fromBytesAt (w : Nat) (bytes : Bytes) : Indexed TripleDecodeError (State Secret) :=
  match decodeStateAt w bytes with
  | .error stop => .error stop
  | .ok state => if !state.invariant then refuse malformed else .ok state

section Positions

variable {w : Nat} {bytes : Bytes} {pos : Nat}

/-- **A stored length never takes the decoder out of its input**: the field is
the reader's, or both refuse. -/
theorem takeLenPrefixed_cases {ε : Type} (e : ε) (addressable : Addressable w bytes)
    (start : pos ≤ bytes.length) :
    (∃ n, pos + 4 + n ≤ bytes.length ∧
      takeLenPrefixed w bytes pos = .ok ((bytes.drop (pos + 4)).take n, pos + 4 + n) ∧
      Reader.lenPrefixed e (bytes.drop pos) =
        .ok ((bytes.drop (pos + 4)).take n, bytes.drop (pos + 4 + n))) ∨
    (takeLenPrefixed w bytes pos = .error (.refused ()) ∧
      Reader.lenPrefixed e (bytes.drop pos) = .error e) := by
  have sum : checkedAdd w pos 4 = some (pos + 4) :=
    Indexed.checkedAdd_eq (addressable.add start (by decide))
  have stepped : Reader.lenPrefixed e (bytes.drop pos) =
      (Reader.u32 e (bytes.drop pos) >>= fun p => Reader.bytes e p.1.toNat p.2) := rfl
  by_cases inside : pos + 4 ≤ bytes.length
  · obtain ⟨a, field⟩ : ∃ a : Arr 4, (bytes.drop pos).take 4 = a.toList := Indexed.field_eq inside
    have cut : (slice bytes pos (pos + 4) : Indexed Unit Bytes) = .ok a.toList := by
      rw [Indexed.slice_eq inside, field]
    have copied : (copy 4 a.toList : Indexed Unit (Arr 4)) = .ok a := Indexed.copy_toList a
    have word : Reader.u32 e (bytes.drop pos) =
        .ok (UInt32.ofNat (ofBe a.toList), bytes.drop (pos + 4)) := by
      rw [← field]
      exact Reader.map_drop (Reader.bytes_drop e inside)
    have prefix_ : takeLenPrefixed w bytes pos = (do
        let stop ← orRefuse (checkedAdd w (pos + 4) (UInt32.ofNat (ofBe a.toList)).toNat) ()
        require (decide (stop ≤ bytes.length)) ()
        let field ← slice bytes (pos + 4) stop
        .ok (field, stop)) := by
      simp [takeLenPrefixed, sum, orRefuse, require, inside, cut, copied, addressable.asUsize, bind,
        Except.bind]
    have rest : Reader.lenPrefixed e (bytes.drop pos) =
        Reader.bytes e (UInt32.ofNat (ofBe a.toList)).toNat (bytes.drop (pos + 4)) := by
      rw [stepped, word]
      rfl
    rw [prefix_, rest]
    generalize (UInt32.ofNat (ofBe a.toList)).toNat = n
    by_cases fits : pos + 4 + n ≤ bytes.length
    · refine .inl ⟨n, fits, ?_, Reader.bytes_drop e fits⟩
      have second : checkedAdd w (pos + 4) n = some (pos + 4 + n) :=
        Indexed.checkedAdd_eq (fits.trans_lt addressable.length_lt)
      have taken : (slice bytes (pos + 4) (pos + 4 + n) : Indexed Unit Bytes) =
          .ok ((bytes.drop (pos + 4)).take n) := Indexed.slice_eq fits
      simp [second, orRefuse, require, fits, taken, bind, Except.bind]
    · refine .inr ⟨?_, Reader.bytes_short e (by omega) inside⟩
      unfold checkedAdd
      by_cases counted : pos + 4 + n < 2 ^ w
      · rw [if_pos counted]
        simp [orRefuse, require, refuse, fits, bind, Except.bind]
      · rw [if_neg counted]
        rfl
  · refine .inr ⟨?_, ?_⟩
    · simp [takeLenPrefixed, sum, orRefuse, require, refuse, inside, bind, Except.bind]
    · have short : Reader.bytes e 4 (bytes.drop pos) = .error e :=
        Reader.bytes_short e (by omega) start
      have word : Reader.u32 e (bytes.drop pos) = (Reader.bytes e 4 (bytes.drop pos) >>= fun p =>
          pure (UInt32.ofNat (ofBe p.1), p.2)) := rfl
      rw [stepped, word, short]
      rfl

theorem follows_framed {ε α β γ : Type} {e : ε} {keep : β × Bytes → γ}
    {f : Bytes × Nat → Indexed ε γ} {decode : Bytes → Except ε α} {g : α → Reader ε β}
    (addressable : Addressable w bytes) (start : pos ≤ bytes.length)
    (next : ∀ field stop, stop ≤ bytes.length → Addressable w field →
      Follows keep (f (field, stop)) ((Reader.lift (decode field) >>= g) (bytes.drop stop))) :
    Follows keep (otherwise (takeLenPrefixed w bytes pos) e >>= f)
      ((Reader.nested e decode >>= g) (bytes.drop pos)) := by
  have stepped : (Reader.nested e decode >>= g) (bytes.drop pos) =
      ((Reader.lenPrefixed e >>= fun field => Reader.lift (decode field) >>= g)
        (bytes.drop pos)) := by
    rw [Reader.nested, bind_assoc]
  rw [stepped]
  obtain ⟨n, inside, taken, read⟩ | ⟨refused, short⟩ := takeLenPrefixed_cases e addressable start
  · refine .left (by rw [taken]; rfl) (.right read ?_)
    exact next _ _ inside (addressable.part _ _)
  · exact .refused (r := Reader.lenPrefixed e) (by rw [refused]; rfl) short

/-- **The decoder stays inside its input.** -/
theorem decodeStateAt_eq (addressable : Addressable w bytes) :
    decodeStateAt w bytes = (decodeState.value bytes).mapError Stop.refused := by
  have follows : Follows Prod.fst (decodeStateAt w bytes) (decodeState (bytes.drop 0)) := by
    cases bytes with
    | nil => rfl
    | cons b rest =>
        refine .left (a := ()) rfl ?_
        refine .track (.u8 _ (by simp)) fun version => .require rfl fun _ => ?_
        refine follows_framed addressable (by simp) fun field stop inside part => ?_
        refine .lift (Indexed.otherwise_eq malformed (Ratchet.State.fromBytesAt_eq part))
          fun classical _ => ?_
        refine follows_framed addressable inside fun field stop inside part => ?_
        refine .lift (Indexed.otherwise_eq malformed (Spqr.State.fromBytesAt_eq part))
          fun postQuantum _ => ?_
        exact .atEnd inside (.of_pure _ rfl)
  rw [List.drop_zero] at follows
  exact follows.value

theorem State.fromBytesAt_eq (addressable : Addressable w bytes) :
    State.fromBytesAt w bytes = (State.fromBytes bytes).mapError Stop.refused := by
  rw [State.fromBytesAt, decodeStateAt_eq addressable, State.fromBytes]
  cases decodeState.value bytes with
  | error e => rfl
  | ok state =>
      simp only [Except.mapError]
      split <;> rfl

end Positions

/-- **The composed format is exact.** -/
theorem State.format_exact {w : Nat} (wide : 32 ≤ w) :
    ExactFormat w (State.invariant (K := Secret)) State.toBytes (State.fromBytesAt w) :=
  .of_reader wide (fun _ => State.fromBytesAt_eq)
    (fun _ inv => State.fromBytes_toBytes (invariant_iff.1 inv))
    (fun _ inv => (State.length_toBytes_lt (invariant_iff.1 inv)).trans (by decide))
    (fun _ _ => State.fromBytes_ok)

/-- **Ratchet storage is exact**: of the classical ratchet, the sparse ratchet
and the two composed, on every machine whose `usize` has at least 32 bits. -/
theorem ratchet_storage_exact {w : Nat} (wide : 32 ≤ w) :
    ExactFormat w (Ratchet.State.invariant (K := Secret)) Ratchet.State.toBytes
      (Ratchet.State.fromBytesAt w) ∧
    ExactFormat w (Spqr.State.invariant (K := Secret)) Spqr.State.toBytes
      (Spqr.State.fromBytesAt w) ∧
    ExactFormat w (State.invariant (K := Secret)) State.toBytes (State.fromBytesAt w) :=
  ⟨Ratchet.State.format_exact wide, Spqr.State.format_exact wide, State.format_exact wide⟩

/-- A new responder's state, stored and restored on a 32-bit machine: its bytes and
no others of that size give it back. -/
theorem ratchet_storage_exact_narrow :
    let new := State.initReceiver Sample.kdf [] (Sample.publicKey (Vector.replicate 32 1)) .tacenta
    State.fromBytesAt 32 new.toBytes = .ok new ∧
      ∀ bytes, bytes.length < 2 ^ 31 → State.fromBytesAt 32 bytes = .ok new → bytes = new.toBytes := by
  intro new
  have inv : new.invariant = true := invariant_iff.2 (initReceiver_valid (Sample.publicKey_canonical _))
  have exact_ := (ratchet_storage_exact (w := 32) (by decide)).2.2
  exact ⟨exact_.restores new inv, fun bytes small read => (exact_.accepted bytes new small read).2.symm⟩

end Tacenta.Triple
