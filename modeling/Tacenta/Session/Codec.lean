/-
# Tacenta.Session.Codec -- a session at rest

`Session::export` and `Session::import`.  The reader takes the fields, encodes
them again and compares, and then asks the invariant.

* `session_invariant_inductive`: both establishments and every import give a
  session with both invariants, every call keeps them, and every session reached
  can be exported and imported again;
* `session_storage_bijection`: exporting and importing are inverse to each
  other, below the Braid's reserved epoch (`reserved_epoch_refused` is why).
-/
import Tacenta.Braid.Codec
import Tacenta.Session.Invariant
import Tacenta.Triple.Codec

set_option autoImplicit false

namespace Tacenta

open Tacenta.Handshake (encodeEc decodeEc)

namespace Session

def sessionVersion : UInt8 := 0x01

inductive SessionDecodeError where
  | tooShort
  | unknownVersion
  | malformed
  | nonCanonical
  | inconsistent
  deriving DecidableEq, Repr

/-! ## Writing -/

def PendingInitial.toBytes (m : PendingInitial) : Bytes :=
  m.ephemeralPublic.toList ++ (lenPrefix m.kemCiphertext ++ (be32 m.signedPrekeyId ++
    (be32 m.oneTimePrekeyId ++ be32 m.kemPrekeyId)))

/-- A presence byte, then the field when there is one. -/
def writeOptional {α : Type} (write : α → Bytes) : Option α → Bytes
  | none => [0x00]
  | some a => [0x01] ++ lenPrefix (write a)

def exportBytes (s : Session Secret) : Bytes :=
  [sessionVersion] ++ (lenPrefix s.triple.toBytes ++ (lenPrefix s.braid.toBytes ++
    (s.ratchetPrivate.toList ++ (lenPrefix s.identityAd ++ (s.ourIdentityPublic.toList ++
      (s.peerIdentityPublic.toList ++ (writeOptional PendingInitial.toBytes s.pendingInitial ++
        writeOptional id s.establishedEphemeral)))))))

/-! ## Reading -/

open SessionDecodeError

def PendingInitial.read : Reader Unit PendingInitial := do
  let ephemeralPublic ← Reader.arr () 32
  let kemCiphertext ← Reader.lenPrefixed ()
  let signedPrekeyId ← Reader.u32 ()
  let oneTimePrekeyId ← Reader.u32 ()
  let kemPrekeyId ← Reader.u32 ()
  Reader.atEnd ()
  pure { ephemeralPublic, kemCiphertext, signedPrekeyId, oneTimePrekeyId, kemPrekeyId }

def PendingInitial.fromBytes (bytes : Bytes) : Option PendingInitial :=
  (PendingInitial.read.value bytes).toOption

def readOptional {α : Type} (decode : Bytes → Option α) : Reader SessionDecodeError (Option α) := do
  let tag ← Reader.u8 tooShort
  if tag = 0x00 then pure none
  else if tag = 0x01 then
    some <$> Reader.nested tooShort fun field =>
      match decode field with
      | some a => .ok a
      | none => .error malformed
  else Reader.refuse malformed

def sessionFields (p : Primitives Secret) : Reader SessionDecodeError (Session Secret) := do
  let version ← Reader.u8 tooShort
  Reader.require (version == sessionVersion) unknownVersion
  let triple ← Reader.nested tooShort fun field =>
    (Triple.State.fromBytes field).mapError fun _ => malformed
  let braid ← Reader.nested tooShort fun field =>
    (Braid.Braid.fromBytes p.incKem field).mapError fun _ => malformed
  let ratchetPrivate ← Reader.arr tooShort 32
  let identityAd ← Reader.lenPrefixed tooShort
  let ourIdentityPublic ← Reader.arr tooShort 32
  let peerIdentityPublic ← Reader.arr tooShort 32
  let pendingInitial ← readOptional PendingInitial.fromBytes
  let establishedEphemeral ← readOptional some
  Reader.atEnd malformed
  pure { triple, braid, ratchetPrivate, identityAd, ourIdentityPublic, peerIdentityPublic,
         pendingInitial, establishedEphemeral }

def importUnchecked (p : Primitives Secret) (bytes : Bytes) :
    Except SessionDecodeError (Session Secret) :=
  (sessionFields p).value bytes

/-- `Session::import`: what was read must encode back to what was read, and be a
session the constructors build. -/
def importBytes (p : Primitives Secret) (bytes : Bytes) :
    Except SessionDecodeError (Session Secret) :=
  match importUnchecked p bytes with
  | .error e => .error e
  | .ok session =>
      if session.exportBytes ≠ bytes then .error nonCanonical
      else if !session.invariant p then .error inconsistent
      else .ok session

/-! ## Round trip -/

variable {p : Primitives Secret} {s : Session Secret}

theorem PendingInitial.fromBytes_toBytes {m : PendingInitial}
    (small : m.kemCiphertext.length < 2 ^ 32) : PendingInitial.fromBytes m.toBytes = some m := by
  have reads : ReadsAll PendingInitial.read m.toBytes m := by
    refine .bind (Reads.arr _ m.ephemeralPublic) (.bind (Reads.lenPrefixed _ small) ?_)
    refine .bind (Reads.u32 _ m.signedPrekeyId) (.bind (Reads.u32 _ m.oneTimePrekeyId) ?_)
    exact .bind_last (Reads.u32 _ m.kemPrekeyId) (.atEnd _ (.of_pure _))
  rw [PendingInitial.fromBytes, reads.value]
  rfl

theorem reads_optional {α : Type} {decode : Bytes → Option α} {write : α → Bytes} {o : Option α}
    (each : ∀ a, o = some a → (write a).length < 2 ^ 32 ∧ decode (write a) = some a) :
    Reads (readOptional decode) (writeOptional write o) o := by
  cases o with
  | none => exact .bind_last (Reads.u8 _ 0x00) (.of_pure _)
  | some a =>
      obtain ⟨small, decodes⟩ := each a rfl
      refine .bind (Reads.u8 _ 0x01) ?_
      exact (Reads.nested _ small (by rw [decodes])).map some

/-- **The session round trip**, for sessions whose Braid can be stored. -/
theorem importBytes_exportBytes (valid : Valid p s) (stored : s.braid.state.Stored) :
    importBytes p s.exportBytes = .ok s := by
  have triple := Triple.State.length_toBytes_lt valid.triple
  have braid := Braid.Braid.length_toBytes_lt valid.braid stored
  have ad : s.identityAd.length < 2 ^ 32 := by
    rw [valid.oriented, roleAd]
    split <;> simp
  have reads : ReadsAll (sessionFields p) s.exportBytes s := by
    refine .bind (Reads.u8 _ sessionVersion) (.bind_nil (.require _ (by decide)) ?_)
    refine .bind (Reads.nested _ (by omega)
      (mapError_eq_ok.2 (Triple.State.fromBytes_toBytes valid.triple))) ?_
    refine .bind (Reads.nested _ (by omega)
      (mapError_eq_ok.2 (Braid.Braid.fromBytes_toBytes valid.braid stored))) ?_
    refine .bind (Reads.arr _ s.ratchetPrivate) (.bind (Reads.lenPrefixed _ ad) ?_)
    refine .bind (Reads.arr _ s.ourIdentityPublic) (.bind (Reads.arr _ s.peerIdentityPublic) ?_)
    refine .bind (reads_optional fun m h => ?_) ?_
    · have length := (valid.pending m h).1
      have small : m.kemCiphertext.length < 2 ^ 32 := by
        rw [length]
        decide
      refine ⟨?_, PendingInitial.fromBytes_toBytes small⟩
      simp only [PendingInitial.toBytes, List.length_append, Arr.length_toList, length_lenPrefix,
        length_be32, length, MlKem.ciphertextLen]
      decide
    · refine .bind_last (reads_optional fun e h => ?_) (.atEnd _ (.of_pure _))
      obtain ⟨k, decoded⟩ := Option.isSome_iff_exists.1 (valid.ephemeral e h)
      rw [(Handshake.decodeEc_eq_some.1 decoded).1]
      exact ⟨by simp, rfl⟩
  simp only [importBytes, importUnchecked, reads.value, ne_eq, not_true_eq_false, if_false,
    invariant_iff.2 valid, Bool.not_true, Bool.false_eq_true]

/-- What an import that succeeds has checked. -/
theorem importBytes_ok {bytes : Bytes} (imported : importBytes p bytes = .ok s) :
    importUnchecked p bytes = .ok s ∧ s.exportBytes = bytes ∧ Valid p s := by
  unfold importBytes at imported
  split at imported
  · simp at imported
  · rename_i session read
    split at imported
    · simp at imported
    · rename_i canonical
      split at imported
      · simp at imported
      · rename_i inv
        rw [← Except.ok.inj imported]
        exact ⟨read, not_not.1 canonical, invariant_iff.1 (by simpa using inv)⟩

/-- An imported session's Braid can be stored. -/
theorem importBytes_stored {bytes : Bytes} (imported : importBytes p bytes = .ok s) :
    s.braid.state.Stored := by
  have ensured : Ensures (sessionFields p) fun s => s.braid.state.Stored := by
    refine .skip fun _ => .skip fun _ => .skip fun _ => ?_
    refine .bind (.nested _ fun l b decodes =>
      (Braid.Braid.fromBytes_ok (mapError_eq_ok.1 decodes)).2) fun braid stored => ?_
    refine .skip fun _ => .skip fun _ => .skip fun _ => .skip fun _ => .skip fun _ => .skip fun _ => ?_
    exact .skip fun _ => .of_pure stored
  exact ensured.value (importBytes_ok imported).1

/-! ## What every call keeps -/

theorem step_stored (wf : p.incKem.WellFormed) (stored : s.braid.state.Stored) (call : Call) :
    (step p s call).braid.state.Stored := by
  cases call with
  | encrypt plaintext rng =>
      have ends := encrypt_ends p s plaintext rng
      rw [step]
      generalize s.encrypt p plaintext rng = result at ends ⊢
      obtain ⟨after, outcome, rng'⟩ := result
      simp only at ends ⊢
      cases ends with
      | ended | refused => exact stored
      | kemFailed => exact Braid.State.failed_stored
      | sent alive ran =>
          have state := congrArg (fun r => r.2.2.2.1.state) ran
          simp only at state
          simp only [← state]
          exact Braid.stepSend_stored wf stored rng
  | decrypt message rng =>
      rw [step]
      obtain ⟨e, rng', refused⟩ | ⟨inner, decoded, output, braid, dhOutRecv, dhOutSend, triple, key,
        plaintext, -, opens, opened⟩ := decrypt_cases p s message rng
      · rw [refused]
        exact stored
      · rw [opened]
        have agreement := opens.agreement
        rw [Braid.receive_snd, Prod.mk.injEq] at agreement
        simp only [adopted, ← agreement.2]
        exact Braid.stepReceive_stored stored _

theorem step_valid (honest : p.dh.Honest) (wf : p.incKem.WellFormed) (sized : p.kdf.Sized)
    (valid : Valid p s) (call : Call) : Valid p (step p s call) := by
  cases call with
  | encrypt plaintext rng => exact encrypt_valid wf sized valid plaintext rng
  | decrypt message rng => exact decrypt_valid honest wf sized valid message rng

theorem Established.stored (established : Established p s) : s.braid.state.Stored := by
  have plain : ∀ {st : Braid.State Secret}, st.epoch = 1 → st.keyPair = none →
      st.encapsState = none → st.Stored := by
    intro st epoch pair encaps
    refine ⟨?_, fun kp h => by simp [pair] at h, fun e h => by simp [encaps] at h⟩
    rw [epoch]
    decide
  cases established with
  | initiator established =>
      obtain ⟨_, _, _, _, _, _, -, rfl⟩ := establishInitiatorFor_ok established
      exact plain rfl rfl rfl
  | responder established =>
      obtain ⟨r, _, _, braid, _, _, _, _, -, -, opens, rfl⟩ := establishResponder_ok established
      have agreement := opens.agreement
      rw [Braid.receive_snd, Prod.mk.injEq] at agreement
      simp only [adopted, ← agreement.2]
      exact Braid.stepReceive_stored (plain rfl rfl rfl) _

/-- **Every session reached can be stored**: it satisfies the invariant. -/
theorem run_kept (honest : p.dh.Honest) (wf : p.incKem.WellFormed) (sized : p.kdf.Sized)
    (ciphertext_length : ∀ pk r, (p.kem.encapsulate pk r).1.length = MlKem.ciphertextLen)
    (start : Established p s ∨ ∃ bytes, importBytes p bytes = .ok s) (calls : List Call) :
    Valid p (run p s calls) ∧ (run p s calls).braid.state.Stored := by
  refine run_induction (motive := fun s => Valid p s ∧ s.braid.state.Stored)
    (fun s call kept => ⟨step_valid honest wf sized kept.1 call, step_stored wf kept.2 call⟩) ?_ calls
  rcases start with established | ⟨bytes, imported⟩
  · exact ⟨established.valid honest wf sized ciphertext_length, established.stored⟩
  · exact ⟨(importBytes_ok imported).2.2, importBytes_stored imported⟩

/-- **Session invariant is inductive.**  With key generation that yields
canonical keys and values of the declared lengths: a session either side
establishes, or that import yields, satisfies both halves of the invariant;
`encrypt` and `decrypt` leave a session that satisfies both, whatever plaintext,
bytes and randomness they are given and whether they succeed or refuse; so every
session reached exports bytes that import restores it from. -/
theorem session_invariant_inductive (honest : p.dh.Honest) (wf : p.incKem.WellFormed)
    (sized : p.kdf.Sized)
    (ciphertext_length : ∀ pk r, (p.kem.encapsulate pk r).1.length = MlKem.ciphertextLen) :
    (∀ s, Established p s → s.structuralInvariant p = true ∧ s.leafInvariants p = true) ∧
    (∀ bytes s, importBytes p bytes = .ok s →
      s.structuralInvariant p = true ∧ s.leafInvariants p = true) ∧
    (∀ s call, s.structuralInvariant p = true → s.leafInvariants p = true →
      (step p s call).structuralInvariant p = true ∧ (step p s call).leafInvariants p = true) ∧
    (∀ s, (Established p s ∨ ∃ bytes, importBytes p bytes = .ok s) → ∀ calls,
      importBytes p (run p s calls).exportBytes = .ok (run p s calls)) := by
  have both : ∀ {s : Session Secret}, Valid p s →
      s.structuralInvariant p = true ∧ s.leafInvariants p = true := fun valid => by
    simpa only [invariant, Bool.and_eq_true] using invariant_iff.2 valid
  have ofBoth : ∀ {s : Session Secret}, s.structuralInvariant p = true →
      s.leafInvariants p = true → Valid p s := fun structural leaf =>
    invariant_iff.1 (by rw [invariant, structural, leaf]; rfl)
  refine ⟨fun s established => both (established.valid honest wf sized ciphertext_length),
    fun bytes s imported => both (importBytes_ok imported).2.2,
    fun s call structural leaf => both (step_valid honest wf sized (ofBoth structural leaf) call),
    fun s start calls => ?_⟩
  have kept := run_kept honest wf sized ciphertext_length start calls
  exact importBytes_exportBytes kept.1 kept.2

/-- An established session, after a message each way, is restored from its export. -/
theorem session_invariant_sample : ∃ s rng',
    establishInitiator Sample.primitives ⟨Vector.replicate 32 5⟩
      ((Store.createPrekeys Sample.primitives ⟨Vector.replicate 32 7⟩ 1 fun _ => 1).1.publish
        Sample.primitives) (fun _ => 6) = (.ok s, rng') ∧
    (s.structuralInvariant Sample.primitives = true ∧ s.leafInvariants Sample.primitives = true) ∧
    importBytes Sample.primitives (run Sample.primitives s
        [.encrypt [0x68, 0x69] fun _ => 2, .decrypt [0x01] fun _ => 3]).exportBytes =
      .ok (run Sample.primitives s [.encrypt [0x68, 0x69] fun _ => 2, .decrypt [0x01] fun _ => 3]) := by
  obtain ⟨s, rng', accepted⟩ := established_sample
  obtain ⟨starts, -, -, restores⟩ := session_invariant_inductive (p := Sample.primitives)
    (Sample.dh_honest id) (Sample.incKem_honest id).toWellFormed Sample.kdf_sized
    (Sample.kem_honest id).ciphertext_length
  exact ⟨s, rng', accepted, starts s (.initiator accepted), restores s (.inl (.initiator accepted)) _⟩

/-- **Session storage is a bijection** on the sessions that satisfy the
invariant with a Braid below its reserved epoch: importing an export restores
the session, and exporting an import restores the bytes. -/
theorem session_storage_bijection :
    (∀ s, s.structuralInvariant p = true → s.leafInvariants p = true →
      s.braid.epoch ≠ UInt64.maxValue →
      (∀ kp, s.braid.state.keyPair = some kp →
        Kem.IncrementalKeyPair.fromBytes kp.raw = some kp) →
      (∀ e, s.braid.state.encapsState = some e → Kem.EncapsState.fromBytes e.raw = some e) →
      importBytes p s.exportBytes = .ok s) ∧
    (∀ bytes s, importBytes p bytes = .ok s → s.exportBytes = bytes) := by
  refine ⟨fun s structural leaf epoch pair encaps => ?_, fun bytes s imported =>
    (importBytes_ok imported).2.1⟩
  refine importBytes_exportBytes (invariant_iff.1 (by rw [invariant, structural, leaf]; rfl))
    ⟨epoch, fun kp h => ?_, fun e h => ?_⟩
  · have fits := pair kp h
    unfold Kem.IncrementalKeyPair.fromBytes at fits
    split at fits
    · simp at fits
    · rename_i length
      exact not_not.1 length
  · have fits := encaps e h
    unfold Kem.EncapsState.fromBytes at fits
    split at fits
    · simp at fits
    · rename_i length
      exact not_not.1 length

/-- An established session that has sent, and so holds a key pair, is restored from
its export and from no other bytes. -/
theorem session_storage_bijection_sample : ∃ s rng',
    establishInitiator Sample.primitives ⟨Vector.replicate 32 5⟩
      ((Store.createPrekeys Sample.primitives ⟨Vector.replicate 32 7⟩ 1 fun _ => 1).1.publish
        Sample.primitives) (fun _ => 6) = (.ok s, rng') ∧
    ∀ bytes, importBytes Sample.primitives bytes =
        .ok (run Sample.primitives s [.encrypt [0x68] fun _ => 2]) ↔
      (run Sample.primitives s [.encrypt [0x68] fun _ => 2]).exportBytes = bytes := by
  obtain ⟨s, rng', accepted⟩ := established_sample
  obtain ⟨restores, spelled⟩ := session_storage_bijection (p := Sample.primitives)
  obtain ⟨valid, stored⟩ := run_kept (Sample.dh_honest id) (Sample.incKem_honest id).toWellFormed
    Sample.kdf_sized (Sample.kem_honest id).ciphertext_length (.inl (.initiator accepted))
    [.encrypt [0x68] fun _ => 2]
  have both := invariant_iff.2 valid
  rw [invariant, Bool.and_eq_true] at both
  refine ⟨s, rng', accepted, fun bytes => ⟨spelled bytes _, ?_⟩⟩
  rintro rfl
  apply restores _ both.1 both.2 stored.epoch
  · exact fun kp holds => if_neg (not_not.2 (stored.keyPair kp holds))
  · exact fun e holds => if_neg (not_not.2 (stored.encaps e holds))

/-- A session whose Braid is at the reserved epoch, and the rest in step with it. -/
def reservedSession : Session Secret where
  triple :=
    { classical := Ratchet.initSender Sample.kdf (Vector.replicate 32 1)
        (Sample.publicKey (Vector.replicate 32 2)) (Sample.publicKey (Vector.replicate 32 3))
        (Vector.replicate 32 4) .tacenta
      postQuantum :=
        { rk := Vector.replicate 32 5
          epoch := UInt64.maxValue - 1
          chains := [(UInt64.maxValue - 1,
            Spqr.freshChains .a2b (Vector.replicate 32 6) (Vector.replicate 32 7))]
          skipped := []
          direction := .a2b } }
  braid := ⟨.keysUnsampled UInt64.maxValue ⟨Vector.replicate 32 8, Vector.replicate 32 9⟩⟩
  ratchetPrivate := Vector.replicate 32 2
  identityAd := Handshake.identityAd (Sample.publicKey (Vector.replicate 32 5))
    (Sample.publicKey (Vector.replicate 32 6))
  ourIdentityPublic := Sample.publicKey (Vector.replicate 32 5)
  peerIdentityPublic := Sample.publicKey (Vector.replicate 32 6)
  pendingInitial := none
  establishedEphemeral := none

/-- The reserved epoch satisfies the invariant and is refused on the way in. -/
theorem reserved_epoch_refused :
    reservedSession.structuralInvariant Sample.primitives = true ∧
      reservedSession.leafInvariants Sample.primitives = true ∧
      importBytes Sample.primitives reservedSession.exportBytes = .error .malformed := by
  decide +kernel

end Session

end Tacenta
