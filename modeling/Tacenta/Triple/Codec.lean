/-
# Tacenta.Triple.Codec -- a Triple Ratchet at rest

`State::to_bytes` and `State::from_bytes` of `tacenta-triple`: a version byte,
then each ratchet's own encoding behind its length.  `fromBytes_toBytes`
restores every state that satisfies the composition's invariant.
-/
import Tacenta.Ratchet.Codec
import Tacenta.Spqr.Codec
import Tacenta.Triple.Invariant

set_option autoImplicit false

namespace Tacenta.Triple

def stateVersion : UInt8 := 0x01

inductive TripleDecodeError where
  | unknownVersion
  | tooShort
  | malformed
  deriving DecidableEq, Repr

open TripleDecodeError

def State.toBytes (s : State Secret) : Bytes :=
  [stateVersion] ++ (lenPrefix s.classical.toBytes ++ lenPrefix s.postQuantum.toBytes)

/-- The fields of a state.  What a ratchet's own decoder refuses is malformed
here, whatever it was refused for. -/
def decodeState : Reader TripleDecodeError (State Secret) := do
  let version ← Reader.u8 tooShort
  Reader.require (version == stateVersion) unknownVersion
  let classical ← Reader.nested tooShort fun field =>
    (Ratchet.State.fromBytes field).mapError fun _ => malformed
  let postQuantum ← Reader.nested tooShort fun field =>
    (Spqr.State.fromBytes field).mapError fun _ => malformed
  Reader.atEnd malformed
  pure { classical, postQuantum }

def State.fromBytes (bytes : Bytes) : Except TripleDecodeError (State Secret) :=
  match decodeState.value bytes with
  | .error e => .error e
  | .ok state => if !state.invariant then .error malformed else .ok state

/-! ## Round trip -/

theorem decodeState_toBytes {s : State Secret} (valid : Valid s) :
    ReadsAll decodeState s.toBytes s := by
  have classical := Ratchet.State.length_toBytes_lt valid.classical
  have sparse := Spqr.State.length_toBytes_lt valid.postQuantum
  refine .bind (Reads.u8 _ stateVersion) (.bind_nil (.require _ (by decide)) ?_)
  refine .bind (Reads.nested _ (by omega)
    (mapError_eq_ok.2 (Ratchet.State.fromBytes_toBytes valid.classical))) ?_
  exact .bind_last (Reads.nested _ (by omega)
    (mapError_eq_ok.2 (Spqr.State.fromBytes_toBytes valid.postQuantum))) (.atEnd _ (.of_pure _))

/-- **The Triple Ratchet's round trip.** -/
theorem State.fromBytes_toBytes {s : State Secret} (valid : Valid s) :
    State.fromBytes s.toBytes = .ok s := by
  simp [State.fromBytes, (decodeState_toBytes valid).value, invariant_iff.2 valid]

theorem State.length_toBytes_lt {s : State Secret} (valid : Valid s) :
    s.toBytes.length < 2 ^ 22 := by
  have classical := Ratchet.State.length_toBytes_lt valid.classical
  have sparse := Spqr.State.length_toBytes_lt valid.postQuantum
  simp only [State.toBytes, List.length_append, length_lenPrefix, List.length_singleton]
  omega

end Tacenta.Triple
