/-
# Tacenta.Session.Calls -- what one call does to a session

`encrypt` and `decrypt` each end in a few ways, and every later fact about a
session is derived from these: `encrypt_ends` for the four of `encrypt`,
`decryptRatchet_cases` and `decrypt_cases` for a refusal or an adoption.

* `session_atomicity`: a refused call leaves the session as it was, except that
  a KEM failure inside `encrypt` ends the agreement, and the ratchet's private
  key changes exactly when the public key it belongs to does;
* `run_paired`: through every run of calls it stays the private half of the
  sending key.
-/
import Tacenta.Sample
import Tacenta.Session.Establish
import Tacenta.Triple.Invariant

set_option autoImplicit false

namespace Tacenta

open Tacenta.Wire (Composite DecodedMessage decodeMessage encodeMessage concatAd)
open Tacenta.Triple (TripleError)

variable {K : Type}

/-! ## Eviction and receiving -/

namespace Session

open Triple (Thinned)

theorem evictForRetry_thinned (state : Triple.State K) (half : FullStore) (count : Nat) :
    Thinned state (evictForRetry state half count).1 := by
  cases half with
  | classical =>
      exact ⟨⟨_, Ratchet.eraseIdx_evictOldest_sublist count _, rfl⟩, ⟨_, .refl _, rfl⟩⟩
  | postQuantum => exact ⟨⟨_, .refl _, rfl⟩, ⟨_, List.drop_sublist _ _, rfl⟩⟩

section Receiving

variable {kdf : Kdf K} {composite : Composite} {header : Triple.Header} {dhOutRecv dhOutSend : K}
  {newDhsPub : Arr 32} {output : Option (Spqr.Output K)}

/-- Every result of the retry loop is a receive's on a thinned state. -/
theorem evictLoop_ok {work : Triple.State K} {half : FullStore} {batch : Nat}
    {pending : TripleError} {value : Triple.State K × K}
    (received : evictLoop kdf composite header dhOutRecv dhOutSend newDhsPub output work half batch
      pending = .ok value) :
    ∃ w, Thinned work w ∧
      w.receive kdf header dhOutRecv dhOutSend newDhsPub output = .ok value := by
  have thinned := evictForRetry_thinned work half batch
  rw [evictLoop] at received
  split at received
  · simp at received
  · split at received
    · rename_i value' done
      rw [← Except.ok.inj received]
      exact ⟨_, thinned, done⟩
    · split at received
      · simp at received
      · obtain ⟨w, further, done⟩ := evictLoop_ok received
        exact ⟨w, thinned.trans further, done⟩
termination_by storedKeys work
decreasing_by exact storedKeys_evictForRetry ‹_›

/-- **A receive with eviction is a receive on a thinned state.** -/
theorem receiveWithEviction_ok {state : Triple.State K} {value : Triple.State K × K}
    (received : receiveWithEviction kdf state composite header dhOutRecv dhOutSend newDhsPub output =
      .ok value) :
    ∃ w, Thinned state w ∧
      w.receive kdf header dhOutRecv dhOutSend newDhsPub output = .ok value := by
  unfold receiveWithEviction at received
  split at received
  · rename_i value' done
    rw [← Except.ok.inj received]
    exact ⟨state, .refl state, done⟩
  · split at received
    · simp at received
    · exact evictLoop_ok received

end Receiving

/-! ## Encrypting -/

variable {p : Primitives K} {s : Session K}

/-- The ratchet message `encrypt` makes, once the header and the key are known. -/
def sealed (p : Primitives K) (s : Session K) (composite : Composite) (key : K) (plaintext : Bytes) :
    Bytes :=
  let keys := Ratchet.messageKeys p.kdf key .tacenta
  encodeMessage composite
    (p.aead.encrypt keys.1 keys.2.1 keys.2.2 plaintext (concatAd s.identityAd composite))

/-- What goes on the wire: the ratchet message, inside the initial message while
that is pending. -/
def outgoing (s : Session K) (ratchetMessage : Bytes) : Bytes :=
  match s.pendingInitial with
  | none => ratchetMessage
  | some pending => s.wrapInitial pending ratchetMessage

/-- The Braid's next send draws on a KEM operation that fails. -/
def KemFails (p : Primitives K) (rng : Rng) : Braid.State K → Prop
  | .keysUnsampled .. => (Kem.IncrementalKeyPair.generate p.incKem rng).1 = none
  | .headerReceived _ _ header _ => (Kem.encapsulate1 p.incKem header rng).1 = none
  | _ => False

/-- A send of a live Braid fails only with the KEM. -/
theorem kemFails_of_send {b : Braid.Braid K} {rng : Rng} (alive : b.failed = false)
    (dead : (b.send p.kdf p.incKem rng).2.2.2.1.failed = true) : KemFails p rng b.state := by
  obtain ⟨state⟩ := b
  cases state with
  | keysUnsampled epoch auth =>
      unfold KemFails
      cases generated : Kem.IncrementalKeyPair.generate p.incKem rng with
      | mk kp rng' =>
          cases kp with
          | none => rfl
          | some kp => simp [Braid.Braid.send, Braid.stepSend, generated, Braid.Braid.failed] at dead
  | headerReceived epoch auth header ekDec =>
      unfold KemFails
      cases sampled : Kem.encapsulate1 p.incKem header rng with
      | mk r rng' =>
          cases r with
          | none => simp only [sampled]
          | some r =>
              obtain ⟨encaps, ct1, raw⟩ := r
              simp [Braid.Braid.send, Braid.stepSend, sampled, Braid.Braid.failed] at dead
  | failed => simp [Braid.Braid.failed] at alive
  | _ => simp [Braid.Braid.send, Braid.stepSend, Braid.Braid.failed] at dead

theorem state_of_failed {b : Braid.Braid K} (dead : b.failed = true) : b = ⟨.failed⟩ := by
  obtain ⟨state⟩ := b
  cases state <;> first | rfl | simp [Braid.Braid.failed] at dead

/-- How a call of `encrypt` ends. -/
inductive Encrypts (p : Primitives K) (s : Session K) (plaintext : Bytes) (rng : Rng) :
    Session K → Except Error Bytes → Rng → Prop where
  /-- The agreement had ended before. -/
  | ended (dead : s.braid.failed = true) : Encrypts p s plaintext rng s (.error .agreementFailed) rng
  /-- The KEM failed, and the agreement ends with it. -/
  | kemFailed {rng' : Rng} (alive : s.braid.failed = false) (fails : KemFails p rng s.braid.state) :
      Encrypts p s plaintext rng { s with braid := ⟨.failed⟩ } (.error .agreementFailed) rng'
  | refused {agMsg : Braid.Msg} {epoch : UInt64} {output : Option (Braid.Output K)}
      {braid : Braid.Braid K} {rng' : Rng} {triple : Triple.State K} {e : TripleError}
      (alive : s.braid.failed = false)
      (ran : s.braid.send p.kdf p.incKem rng = (agMsg, epoch, output, braid, rng'))
      (survived : braid.failed = false)
      (refusal : s.triple.send p.kdf epoch (output.map spqrOutput) = (triple, .error e)) :
      Encrypts p s plaintext rng s (.error (.triple e)) rng'
  | sent {agMsg : Braid.Msg} {epoch : UInt64} {output : Option (Braid.Output K)}
      {braid : Braid.Braid K} {rng' : Rng} {triple : Triple.State K} {header : Triple.Header}
      {key : K}
      (alive : s.braid.failed = false)
      (ran : s.braid.send p.kdf p.incKem rng = (agMsg, epoch, output, braid, rng'))
      (survived : braid.failed = false)
      (sent : s.triple.send p.kdf epoch (output.map spqrOutput) = (triple, .ok (header, key))) :
      Encrypts p s plaintext rng { s with triple := triple, braid := braid }
        (.ok (s.outgoing (s.sealed p (compositeOf header agMsg) key plaintext))) rng'

/-- **Every call of `encrypt` ends in one of these ways.** -/
theorem encrypt_ends (p : Primitives K) (s : Session K) (plaintext : Bytes) (rng : Rng) :
    Encrypts p s plaintext rng (s.encrypt p plaintext rng).1 (s.encrypt p plaintext rng).2.1
      (s.encrypt p plaintext rng).2.2 := by
  unfold encrypt
  by_cases dead : s.braid.failed = true
  · rw [if_pos dead]
    exact .ended dead
  · rw [if_neg dead]
    have alive : s.braid.failed = false := by simpa using dead
    cases ran : s.braid.send p.kdf p.incKem rng with
    | mk agMsg rest =>
        obtain ⟨epoch, output, braid, rng'⟩ := rest
        simp only
        by_cases lost : braid.failed = true
        · rw [if_pos lost, state_of_failed lost]
          exact .kemFailed alive (kemFails_of_send alive (by rw [ran]; exact lost))
        · rw [if_neg lost]
          have survived : braid.failed = false := by simpa using lost
          split
          · rename_i triple e refusal
            exact .refused alive ran survived refusal
          · rename_i triple header key sent
            have ends : Encrypts p s plaintext rng _ _ _ := .sent alive ran survived sent
            unfold outgoing at ends
            cases pending : s.pendingInitial with
            | none =>
                rw [pending] at ends
                exact ends
            | some pendingInitial =>
                rw [pending] at ends
                exact ends

/-! ## Decrypting -/

/-- The session after an authenticated message: the candidates, and the fresh
private key if the sending key changed. -/
def adopted (s : Session K) (candidateKey : Arr 32) (triple : Triple.State K)
    (braid : Braid.Braid K) : Session K :=
  { s with
    ratchetPrivate :=
      if triple.sendingPublic ≠ s.triple.sendingPublic then candidateKey else s.ratchetPrivate
    triple := triple
    braid := braid }

/-- The steps of a `decryptRatchet` that opens a message, in order. -/
structure Opens (p : Primitives K) (s : Session K) (message : Bytes) (rng : Rng)
    (decoded : DecodedMessage) (output : Option (Braid.Output K)) (braid : Braid.Braid K)
    (dhOutRecv dhOutSend : K) (triple : Triple.State K) (key : K) (plaintext : Bytes) : Prop where
  alive : s.braid.failed = false
  read : decodeMessage message = .ok decoded
  agreement : (s.braid.receive p.kdf p.incKem (msgOf decoded.header)).2 = (output, braid)
  agreed : p.dh.agree s.ratchetPrivate decoded.header.dh = some dhOutRecv
  fresh : p.dh.agree (randomSecret rng).1 decoded.header.dh = some dhOutSend
  received : receiveWithEviction p.kdf s.triple decoded.header (tripleHeaderOf decoded.header)
    dhOutRecv dhOutSend (p.dh.publicKey (randomSecret rng).1) (output.map spqrOutput) =
      .ok (triple, key)
  opened : p.aead.decrypt (Ratchet.messageKeys p.kdf key .tacenta).1
    (Ratchet.messageKeys p.kdf key .tacenta).2.1 (Ratchet.messageKeys p.kdf key .tacenta).2.2
    decoded.ciphertext (concatAd s.identityAd decoded.header) = some plaintext

/-- A refusal hands the session back; a success hands back `adopted`. -/
theorem decryptRatchet_cases (p : Primitives K) (s : Session K) (message : Bytes) (rng : Rng) :
    (∃ e rng', s.decryptRatchet p message rng = (s, .error e, rng')) ∨
    (∃ decoded output braid dhOutRecv dhOutSend triple key plaintext,
      Opens p s message rng decoded output braid dhOutRecv dhOutSend triple key plaintext ∧
      s.decryptRatchet p message rng =
        (s.adopted (randomSecret rng).1 triple braid, .ok plaintext, (randomSecret rng).2)) := by
  unfold decryptRatchet
  by_cases dead : s.braid.failed = true
  · rw [if_pos dead]
    exact .inl ⟨_, _, rfl⟩
  rw [if_neg dead]
  cases hdecoded : decodeMessage message with
  | error e => exact .inl ⟨_, _, rfl⟩
  | ok decoded =>
      simp only
      cases hbraid : s.braid.receive p.kdf p.incKem (msgOf decoded.header) with
      | mk epoch rest =>
          obtain ⟨output, braid⟩ := rest
          cases hagreed : p.dh.agree s.ratchetPrivate decoded.header.dh with
          | none => exact .inl ⟨_, _, rfl⟩
          | some dhOutRecv =>
              simp only
              cases hfresh : p.dh.agree (randomSecret rng).1 decoded.header.dh with
              | none => exact .inl ⟨_, _, rfl⟩
              | some dhOutSend =>
                  simp only
                  split
                  · exact .inl ⟨_, _, rfl⟩
                  · rename_i triple key received
                    split
                    · exact .inl ⟨_, _, rfl⟩
                    · rename_i plaintext opened
                      refine .inr ⟨decoded, output, braid, dhOutRecv, dhOutSend, triple, key,
                        plaintext, ⟨by simpa using dead, hdecoded, by rw [hbraid], hagreed, hfresh,
                          received, opened⟩, rfl⟩

/-- A message whose every step succeeds is opened. -/
theorem Opens.decryptRatchet_eq {s : Session K} {message plaintext : Bytes} {rng : Rng}
    {decoded : DecodedMessage} {output : Option (Braid.Output K)} {braid : Braid.Braid K}
    {dhOutRecv dhOutSend key : K} {triple : Triple.State K}
    (opens : Opens p s message rng decoded output braid dhOutRecv dhOutSend triple key plaintext) :
    s.decryptRatchet p message rng =
      (s.adopted (randomSecret rng).1 triple braid, .ok plaintext, (randomSecret rng).2) := by
  obtain ⟨alive, read, agreement, agreed, fresh, received, opened⟩ := opens
  cases hbraid : s.braid.receive p.kdf p.incKem (msgOf decoded.header) with
  | mk epoch rest =>
  obtain rfl : rest = (output, braid) := by rw [← agreement, hbraid]
  simp only [decryptRatchet, alive, Bool.false_eq_true, if_false, read, hbraid, agreed, fresh,
    received, opened, adopted]

/-- `decrypt` is `decryptRatchet` on the inner message, and an initiator's
success clears what it had pending. -/
theorem decrypt_cases [DecidableEq K] (p : Primitives K) (s : Session K) (message : Bytes)
    (rng : Rng) :
    (∃ e rng', s.decrypt p message rng = (s, .error e, rng')) ∨
    (∃ inner decoded output braid dhOutRecv dhOutSend triple key plaintext,
      s.innerMessage p message = .ok inner ∧
      Opens p s inner rng decoded output braid dhOutRecv dhOutSend triple key plaintext ∧
      s.decrypt p message rng =
        ({ s.adopted (randomSecret rng).1 triple braid with pendingInitial := none }, .ok plaintext,
          (randomSecret rng).2)) := by
  unfold decrypt
  cases hinner : s.innerMessage p message with
  | error e => exact .inl ⟨_, _, rfl⟩
  | ok inner =>
      simp only
      obtain ⟨e, rng', refused⟩ | ⟨decoded, output, braid, dhOutRecv, dhOutSend, triple, key,
        plaintext, opens, opened⟩ := decryptRatchet_cases p s inner rng
      · rw [refused]
        exact .inl ⟨_, _, rfl⟩
      · rw [opened]
        exact .inr ⟨inner, decoded, output, braid, dhOutRecv, dhOutSend, triple, key, plaintext,
          rfl, opens, rfl⟩

/-! ## Runs -/

/-- One call on a session, with the randomness it draws. -/
inductive Call where
  | encrypt (plaintext : Bytes) (rng : Rng)
  | decrypt (message : Bytes) (rng : Rng)

/-- The session a call leaves. -/
def step [DecidableEq K] (p : Primitives K) (s : Session K) : Call → Session K
  | .encrypt plaintext rng => (s.encrypt p plaintext rng).1
  | .decrypt message rng => (s.decrypt p message rng).1

/-- The session a run of calls leaves. -/
def run [DecidableEq K] (p : Primitives K) (s : Session K) (calls : List Call) : Session K :=
  calls.foldl (step p) s

/-- What every call keeps, every run keeps. -/
theorem run_induction [DecidableEq K] {motive : Session K → Prop}
    (step_keeps : ∀ s call, motive s → motive (step p s call)) (start : motive s)
    (calls : List Call) : motive (run p s calls) := by
  induction calls generalizing s with
  | nil => exact start
  | cons call rest ih => exact ih (step_keeps s call start)

/-! ## Atomicity -/

/-- The ratchet's private key is the private half of the sending key. -/
def Paired (p : Primitives K) (s : Session K) : Prop :=
  p.dh.publicKey s.ratchetPrivate = s.triple.sendingPublic

/-- Encrypting keeps the sending key. -/
theorem Encrypts.sendingPublic {s' : Session K} {plaintext : Bytes} {rng rng' : Rng}
    {result : Except Error Bytes} (ends : Encrypts p s plaintext rng s' result rng') :
    s'.triple.sendingPublic = s.triple.sendingPublic ∧ s'.ratchetPrivate = s.ratchetPrivate := by
  cases ends with
  | ended | kemFailed | refused => exact ⟨rfl, rfl⟩
  | sent alive ran survived sent =>
      obtain ⟨dr, mkEc, pqN, mkPq, classical, -, -, -⟩ := Triple.State.send_ok sent
      obtain ⟨ck, next, -, -, -, -, after⟩ := Ratchet.send_ok classical
      refine ⟨?_, rfl⟩
      simp only [Triple.State.sendingPublic, after, Ratchet.State.sendingPublic]

/-- An opened message keeps the sending key or replaces it by the fresh one's
public half. -/
theorem Opens.sendingPublic {message : Bytes} {rng : Rng} {decoded : DecodedMessage}
    {output : Option (Braid.Output K)} {braid : Braid.Braid K} {dhOutRecv dhOutSend : K}
    {triple : Triple.State K} {key : K} {plaintext : Bytes}
    (opens : Opens p s message rng decoded output braid dhOutRecv dhOutSend triple key plaintext) :
    triple.sendingPublic = s.triple.sendingPublic ∨
      triple.sendingPublic = p.dh.publicKey (randomSecret rng).1 := by
  obtain ⟨w, thinned, received⟩ := receiveWithEviction_ok opens.received
  obtain ⟨mkEc, mkPq, classical, -, -⟩ := Triple.State.receive_ok received
  rw [← thinned.sendingPublic]
  exact Ratchet.receive_sendingPublic classical

theorem Opens.paired {message : Bytes} {rng : Rng} {decoded : DecodedMessage}
    {output : Option (Braid.Output K)} {braid : Braid.Braid K} {dhOutRecv dhOutSend : K}
    {triple : Triple.State K} {key : K} {plaintext : Bytes}
    (opens : Opens p s message rng decoded output braid dhOutRecv dhOutSend triple key plaintext)
    (paired : Paired p s) : Paired p (s.adopted (randomSecret rng).1 triple braid) := by
  simp only [Paired, adopted]
  by_cases changed : triple.sendingPublic = s.triple.sendingPublic
  · simp only [changed, ne_eq, not_true_eq_false, if_false]
    exact paired
  · simp only [ne_eq, changed, not_false_eq_true, if_true]
    exact (opens.sendingPublic.resolve_left changed).symm

theorem step_paired [DecidableEq K] (call : Call) (paired : Paired p s) :
    Paired p (step p s call) := by
  cases call with
  | encrypt plaintext rng =>
      obtain ⟨sending, held⟩ := (encrypt_ends p s plaintext rng).sendingPublic
      rw [Paired, step, sending, held]
      exact paired
  | decrypt message rng =>
      rw [step]
      obtain ⟨e, rng', refused⟩ | ⟨inner, decoded, output, braid, dhOutRecv, dhOutSend, triple, key,
        plaintext, -, opens, opened⟩ := decrypt_cases p s message rng
      · rw [refused]
        exact paired
      · rw [opened]
        exact opens.paired paired

/-- A session one side of a handshake starts with. -/
inductive Established [DecidableEq K] (p : Primitives K) : Session K → Prop where
  | initiator {s : Session K} {identity : Store.Identity} {bundle : Store.PublishedBundle}
      {expected : Arr 32} {rng rng' : Rng}
      (established : establishInitiatorFor p identity bundle expected rng = (.ok s, rng')) :
      Established p s
  | responder {s : Session K} {identity : Store.Identity} {store after : Store.PrekeyStore K}
      {message plaintext : Bytes} {rng rng' : Rng}
      (established : establishResponder p identity store message rng =
        (after, .ok (s, plaintext), rng')) : Established p s

/-- The steps of an `establishInitiatorFor` that succeeds, in order. -/
structure Initiates (p : Primitives K) (identity : Store.Identity) (bundle : Store.PublishedBundle)
    (expected : Arr 32) (ephemeral ratchetPrivate : Arr 32) (kemCiphertext : Bytes) (ss sk dhOut : K) :
    Prop where
  checked : checkBundle p bundle expected = .ok ()
  encapsulated : ∃ r, p.kem.encapsulate bundle.bundle.kemPrekey r = (kemCiphertext, ss)
  derived : Handshake.initiatorSharedSecret p identity.secret ephemeral bundle.bundle ss = .ok sk
  agreed : p.dh.agree ratchetPrivate bundle.bundle.signedPrekey = some dhOut

/-- An initiator's session is `initiatorSession`, of what it drew. -/
theorem establishInitiatorFor_ok {identity : Store.Identity} {bundle : Store.PublishedBundle}
    {expected : Arr 32} {rng rng' : Rng}
    (established : establishInitiatorFor p identity bundle expected rng = (.ok s, rng')) :
    ∃ ephemeral ratchetPrivate kemCiphertext ss sk dhOut,
      Initiates p identity bundle expected ephemeral ratchetPrivate kemCiphertext ss sk dhOut ∧
      s = initiatorSession p identity bundle sk ephemeral ratchetPrivate dhOut kemCiphertext := by
  unfold establishInitiatorFor at established
  split at established
  · simp at established
  · rename_i checked
    simp only at established
    split at established
    · simp at established
    · rename_i kemCiphertext ss rng₁ encapsulated
      have encapsulated : ∃ r, p.kem.encapsulate bundle.bundle.kemPrekey r = (kemCiphertext, ss) := by
        unfold MlKem.encapsulateTo at encapsulated
        split at encapsulated
        · simp at encapsulated
        · simp only [Prod.mk.injEq, Option.some.injEq] at encapsulated
          exact ⟨_, encapsulated.1⟩
      split at established
      · simp at established
      · rename_i sk derived
        split at established
        · simp at established
        · rename_i dhOut agreed
          simp only [Prod.mk.injEq, Except.ok.injEq] at established
          exact ⟨_, _, _, ss, sk, dhOut, ⟨checked, encapsulated, derived, agreed⟩,
            established.1.symm⟩

/-- A responder's session is the one its first message left. -/
theorem establishResponder_ok [DecidableEq K] {identity : Store.Identity}
    {store after : Store.PrekeyStore K}
    {message plaintext : Bytes} {rng rng' : Rng}
    (established : establishResponder p identity store message rng =
      (after, .ok (s, plaintext), rng')) :
    ∃ r decoded output braid dhOutRecv dhOutSend triple key,
      respond p identity store message = .ok r ∧ after = spend store r ∧
      Opens p (responderSession p identity r) r.decoded.message rng decoded output braid dhOutRecv
        dhOutSend triple key plaintext ∧
      s = (responderSession p identity r).adopted (randomSecret rng).1 triple braid := by
  unfold establishResponder at established
  split at established
  · simp at established
  · rename_i r responded
    split at established
    · simp at established
    · rename_i session text rng'' opened
      simp only [Prod.mk.injEq, Except.ok.injEq] at established
      obtain ⟨rfl, ⟨rfl, rfl⟩, -⟩ := established
      obtain ⟨e, rng₁, refused⟩ | ⟨decoded, output, braid, dhOutRecv, dhOutSend, triple, key, text',
        opens, adopts⟩ := decryptRatchet_cases p (responderSession p identity r) r.decoded.message rng
      · rw [refused] at opened
        simp at opened
      · rw [adopts] at opened
        simp only [Prod.mk.injEq, Except.ok.injEq] at opened
        obtain ⟨rfl, rfl, -⟩ := opened
        exact ⟨r, decoded, output, braid, dhOutRecv, dhOutSend, triple, key, responded, rfl, opens,
          rfl⟩

/-- Both sides' sessions start with the private half of their sending key. -/
theorem Established.paired [DecidableEq K] (established : Established p s) : Paired p s := by
  cases established with
  | initiator established =>
      obtain ⟨ephemeral, ratchetPrivate, kemCiphertext, ss, sk, dhOut, -, rfl⟩ :=
        establishInitiatorFor_ok established
      rfl
  | responder established =>
      obtain ⟨r, decoded, output, braid, dhOutRecv, dhOutSend, triple, key, -, -, opens, rfl⟩ :=
        establishResponder_ok established
      exact opens.paired rfl

/-- The sample primitives establish a session from a new store's bundle. -/
theorem established_sample : ∃ s : Session (Arr 32), ∃ rng',
    establishInitiator Sample.primitives ⟨Vector.replicate 32 5⟩
      ((Store.createPrekeys Sample.primitives ⟨Vector.replicate 32 7⟩ 1 fun _ => 1).1.publish
        Sample.primitives) (fun _ => 6) = (.ok s, rng') := by
  have accepted : (establishInitiator Sample.primitives ⟨Vector.replicate 32 5⟩
      ((Store.createPrekeys Sample.primitives ⟨Vector.replicate 32 7⟩ 1 fun _ => 1).1.publish
        Sample.primitives) (fun _ => 6)).1.isOk = true := by
    decide +kernel
  generalize establishInitiator Sample.primitives _ _ _ = result at accepted ⊢
  obtain ⟨outcome, rng'⟩ := result
  cases outcome with
  | error e => simp [Except.isOk, Except.toBool] at accepted
  | ok s => exact ⟨s, rng', rfl⟩

/-- **The ratchet's private key stays the private half of the sending key**
through every run of calls. -/
theorem run_paired [DecidableEq K] (paired : Paired p s) (calls : List Call) :
    Paired p (run p s calls) :=
  run_induction (fun _ call => step_paired call) paired calls

/-- **Session error atomicity.**  A `decrypt` that refuses leaves every field as
it was.  An `encrypt` that refuses does too, except that when the KEM fails the
agreement, and nothing else, ends.  A `decrypt` that succeeds replaces the
ratchet's private key, by the key it drew, exactly when the sending public key
changed.  Through every run of calls on a session either side established, it
stays the private half of the sending key. -/
theorem session_atomicity [DecidableEq K] (p : Primitives K) (s : Session K) :
    (∀ message rng e, (s.decrypt p message rng).2.1 = .error e → (s.decrypt p message rng).1 = s) ∧
    (∀ plaintext rng e, (s.encrypt p plaintext rng).2.1 = .error e →
      (s.encrypt p plaintext rng).1 = s ∨
      (e = .agreementFailed ∧ KemFails p rng s.braid.state ∧
        (s.encrypt p plaintext rng).1 = { s with braid := ⟨.failed⟩ })) ∧
    (∀ message rng plaintext, (s.decrypt p message rng).2.1 = .ok plaintext →
      (s.decrypt p message rng).1.ratchetPrivate =
        if (s.decrypt p message rng).1.triple.sendingPublic = s.triple.sendingPublic then
          s.ratchetPrivate
        else (randomSecret rng).1) ∧
    (Paired p s → ∀ calls, Paired p (run p s calls)) ∧
    (Established p s → ∀ calls, Paired p (run p s calls)) := by
  refine ⟨fun message rng e refused => ?_, fun plaintext rng e refused => ?_,
    fun message rng plaintext opened => ?_, run_paired, fun established => run_paired established.paired⟩
  · obtain ⟨_, _, left⟩ | ⟨_, _, _, _, _, _, _, _, _, -, -, adopts⟩ := decrypt_cases p s message rng
    · rw [left]
    · rw [adopts] at refused
      simp at refused
  · have ends := encrypt_ends p s plaintext rng
    revert refused
    generalize s.encrypt p plaintext rng = result at ends ⊢
    obtain ⟨after, outcome, rng'⟩ := result
    intro refused
    simp only at ends refused ⊢
    cases ends with
    | ended | refused => exact .inl rfl
    | kemFailed alive fails =>
        exact .inr ⟨(Except.error.inj refused).symm, fails, rfl⟩
    | sent => simp at refused
  · obtain ⟨_, _, left⟩ | ⟨_, _, _, _, _, _, _, _, _, -, -, adopts⟩ := decrypt_cases p s message rng
    · rw [left] at opened
      simp at opened
    · rw [adopts]
      simp only [adopted, ne_eq, ite_not]

end Session

end Tacenta
