/-
# Tacenta.Session.Sends -- no number is sent twice

A session's calls move its Triple Ratchet, so `Triple.Sends` holds along its
runs.  Around the calls stand export and import of the latest export, for any
storage that restores what it stored; the session's own bytes are one.

* `no_number_sent_twice`: through encrypts, decrypts, refusals, exports and their
  restoring in any order, no two encrypts carry the same numbers or use the same
  keys, if none is taken back;
* `rollback_reuses_number`: importing an export made before an encrypt brings
  its number back, as the specification warns whoever stores sessions.
-/
import Tacenta.Runs
import Tacenta.Session.Codec
import Tacenta.Triple.Sends

set_option autoImplicit false

namespace Tacenta.Session

open Tacenta.Triple (Sends ratchetEvents)

variable {K : Type} {p : Primitives K} {s : Session K}

/-- What the Triple Ratchet draws in an `encrypt` with this randomness. -/
def drawn (p : Primitives K) (s : Session K) (rng : Rng) : List (Triple.Event K) :=
  let (_, sendingEpoch, output, _, _) := s.braid.send p.kdf p.incKem rng
  s.triple.drawn p.kdf sendingEpoch (output.map spqrOutput)

/-- **What an encrypt sends is what it drew**, sealed under the key it drew. -/
theorem encrypt_drawn {plaintext wire : Bytes} {rng : Rng}
    (sent : (s.encrypt p plaintext rng).2.1 = .ok wire) :
    ∃ header mkClassical mkPq agMsg, s.drawn p rng = [.sent header mkClassical mkPq] ∧
      wire = s.outgoing (s.sealed p (compositeOf header agMsg)
        (Triple.combine p.kdf mkClassical mkPq) plaintext) := by
  have ends := encrypt_ends p s plaintext rng
  revert sent
  generalize s.encrypt p plaintext rng = result at ends ⊢
  obtain ⟨after, outcome, rng'⟩ := result
  intro sent
  simp only at ends sent
  cases ends with
  | ended | kemFailed | refused => simp at sent
  | @sent agMsg epoch output braid rng' triple header key alive ran survived drew =>
      obtain ⟨-, mkEc, mkPq, drawn_eq, rfl⟩ := Triple.State.send_move drew
      refine ⟨header, mkEc, mkPq, agMsg, ?_, (Except.ok.inj sent).symm⟩
      rw [drawn, ran]
      exact drawn_eq

section Calls

variable [DecidableEq K]

/-- The session a call leaves, and what it sent or adopted. -/
def call (p : Primitives K) : Machine (Session K) Call (Triple.Event K)
  | s, .encrypt plaintext rng =>
      match s.encrypt p plaintext rng with
      | (s', .ok _, _) => (s', s.drawn p rng)
      | (s', .error _, _) => (s', [])
  | s, .decrypt message rng =>
      let s' := (s.decrypt p message rng).1
      (s', ratchetEvents s.triple s'.triple)

theorem call_fst (c : Call) : (call p s c).1 = step p s c := by
  cases c with
  | decrypt => rfl
  | encrypt plaintext rng =>
      rw [call, step]
      cases s.encrypt p plaintext rng with
      | mk s' rest =>
          obtain ⟨result, rng'⟩ := rest
          cases result <;> rfl

/-- **Every call keeps the record of sends.** -/
theorem call_sends {first : Arr 32} {past : List (Triple.Event K)}
    (sends : Sends p.kdf first past s.triple) (c : Call) :
    Sends p.kdf first (past ++ (call p s c).2) (call p s c).1.triple := by
  have still : Sends p.kdf first (past ++ []) s.triple := by
    rw [List.append_nil]
    exact sends
  cases c with
  | encrypt plaintext rng =>
      have ends := encrypt_ends p s plaintext rng
      rw [call]
      generalize s.encrypt p plaintext rng = result at ends ⊢
      obtain ⟨after, outcome, rng'⟩ := result
      simp only at ends
      cases ends with
      | ended | kemFailed | refused => exact still
      | sent alive ran survived drew =>
          simp only [drawn, ran]
          exact (Triple.State.send_move drew).1.sends sends
  | decrypt message rng =>
      obtain ⟨e, rng', refused⟩ | ⟨inner, decoded, output, braid, dhOutRecv, dhOutSend, triple, key,
        plaintext, -, opens, opened⟩ := decrypt_cases p s message rng
      · have none_ : ratchetEvents s.triple s.triple = [] := if_neg (by simp)
        simp only [call, refused, none_]
        exact still
      · simp only [call, opened, adopted]
        obtain ⟨w, thinned, received⟩ := receiveWithEviction_ok opens.received
        have same : ratchetEvents s.triple triple = ratchetEvents w triple := by
          obtain ⟨left, -, kept⟩ := thinned.classical
          rw [ratchetEvents, ratchetEvents, kept]
        rw [same]
        have thinner := (Triple.Move.thin thinned).sends sends
        rw [List.append_nil] at thinner
        exact (Triple.Move.receive received).sends thinner

/-- An established session has sent nothing. -/
theorem Established.sends (established : Established p s) :
    Sends p.kdf s.triple.sendingPublic [] s.triple := by
  refine .start ?_
  cases established with
  | initiator established =>
      obtain ⟨_, _, _, _, _, _, -, rfl⟩ := establishInitiatorFor_ok established
      exact Spqr.State.init_draws _ _ _
  | @responder identity _ _ _ _ _ _ established =>
      obtain ⟨r, _, _, braid, _, _, triple, _, -, -, opens, rfl⟩ := establishResponder_ok established
      obtain ⟨w, thinned, received⟩ := receiveWithEviction_ok opens.received
      obtain ⟨left, sub, kept⟩ := thinned.postQuantum
      obtain ⟨mkEc, mkPq, -, sparse, -⟩ := Triple.State.receive_ok received
      have start : Spqr.State.Draws p.kdf [] (responderSession p identity r).triple.postQuantum :=
        Spqr.State.init_draws _ _ _
      have before := start.of_sublist sub
      rw [← kept] at before
      exact Triple.draws_receive before sparse

/-! ## Storage -/

/-- Where sessions are exported to and imported from. -/
structure Storage (K β : Type) where
  save : Session K → β
  load : β → Option (Session K)

/-- What a storage hands back of a session reached from `s` is that session. -/
def Storage.Restores {β : Type} (storage : Storage K β) (p : Primitives K) (s : Session K) : Prop :=
  ∀ calls s', storage.load (storage.save (run p s calls)) = some s' → s' = run p s calls

/-- The session's own bytes. -/
def bytesStorage (p : Primitives Secret) : Storage Secret Bytes where
  save := exportBytes
  load bytes := (importBytes p bytes).toOption

/-- A session with its storage, exports of which fall behind with a send. -/
def stored {β : Type} (p : Primitives K) (storage : Storage K β) :
    Machine (Machine.Kept (Session K) β) (Machine.StorageCall Call)
      (Machine.StorageEvent (Triple.Event K)) :=
  (call p).withStorage Triple.Event.isSent storage.save storage.load

/-- What happened along a run of a session with its storage. -/
def eventsAlong {β : Type} (p : Primitives K) (storage : Storage K β) (s : Session K)
    (calls : List (Machine.StorageCall Call)) : List (Machine.StorageEvent (Triple.Event K)) :=
  ((stored p storage).run ⟨s, none, false⟩ calls).2

/-- **A session keeps the record of its sends** through exports and imports. -/
theorem run_sends {β : Type} {storage : Storage K β} (established : Established p s)
    (restores : storage.Restores p s) (calls : List (Machine.StorageCall Call))
    (held : Machine.StorageEvent.rolledBack ∉ eventsAlong p storage s calls) :
    ∃ triple, Sends p.kdf s.triple.sendingPublic
      ((eventsAlong p storage s calls).filterMap Machine.StorageEvent.inner) triple := by
  have kept := @Machine.withStorage_run _ _ _ _ (call p) Triple.Event.isSent storage.save
    storage.load (fun past live => Sends p.kdf s.triple.sendingPublic past live.triple ∧
      ∃ calls, live = run p s calls) ?_ ?_ ?_ s ⟨established.sends, [], rfl⟩ calls held
  · exact ⟨_, kept.1⟩
  · rintro past live c ⟨sends, calls, rfl⟩
    refine ⟨call_sends sends c, calls ++ [c], ?_⟩
    rw [call_fst, run, run, List.foldl_append]
    rfl
  · rintro past now live silent ⟨sends, reached⟩
    exact ⟨sends.idle silent, reached⟩
  · rintro past live live' ⟨-, calls, rfl⟩ loaded
    exact restores calls live' loaded

end Calls

/-- **No message number is sent twice.**  A successful encrypt sends what it
drew.  Along every run of an established session, or of one Triple Ratchet, with
a storage that restores what it stored, as the session's own bytes do: if
no import takes back an encrypt, no two encrypts carry the same numbers, and no
message key, or cipher key and IV, is used for two. -/
theorem no_number_sent_twice :
    (∀ (K : Type) (p : Primitives K) (s : Session K) plaintext rng wire,
      (s.encrypt p plaintext rng).2.1 = .ok wire →
        ∃ header mkClassical mkPq agMsg, s.drawn p rng = [.sent header mkClassical mkPq] ∧
          wire = s.outgoing (s.sealed p (compositeOf header agMsg)
            (Triple.combine p.kdf mkClassical mkPq) plaintext)) ∧
    (∀ (K β : Type) [DecidableEq K] (p : Primitives K) (storage : Storage K β) (s : Session K),
      Established p s → storage.Restores p s → ∀ calls,
        Machine.StorageEvent.rolledBack ∉ eventsAlong p storage s calls →
          Triple.SentOnce p.kdf s.triple.sendingPublic
            ((eventsAlong p storage s calls).filterMap Machine.StorageEvent.inner)) ∧
    (∀ (p : Primitives Secret) (s : Session Secret), p.dh.Honest → p.incKem.WellFormed →
      p.kdf.Sized → (∀ pk r, (p.kem.encapsulate pk r).1.length = MlKem.ciphertextLen) →
        Established p s → (bytesStorage p).Restores p s) ∧
    (∀ (K β : Type) (kdf : Kdf K) (save : Triple.State K → β) (load : β → Option (Triple.State K))
      (s : Triple.State K), Triple.Started kdf s →
        (∀ calls s', load (save ((Triple.State.call kdf).run s calls).1) = some s' →
          s' = ((Triple.State.call kdf).run s calls).1) → ∀ calls,
        Machine.StorageEvent.rolledBack ∉ Triple.eventsAlong kdf save load s calls →
          Triple.SentOnce kdf s.sendingPublic
            ((Triple.eventsAlong kdf save load s calls).filterMap Machine.StorageEvent.inner)) := by
  refine ⟨?_, ?_, ?_, ?_⟩
  · intro K p s plaintext rng wire sent
    exact encrypt_drawn sent
  · intro K β _ p storage s established restores calls held
    obtain ⟨triple, sends⟩ := run_sends established restores calls held
    exact sends.sentOnce
  · intro p s honest wf sized ciphertext_length established calls s' loaded
    have kept := run_kept honest wf sized ciphertext_length (.inl established) calls
    simp only [bytesStorage, importBytes_exportBytes kept.1 kept.2, Except.toOption,
      Option.some.injEq] at loaded
    exact loaded.symm
  · intro K β kdf save load s started restores calls held
    obtain ⟨live, sends⟩ := Triple.run_sends started restores calls held
    exact sends.sentOnce

/-- An export, its import, and two encrypts. -/
def resumed : List (Machine.StorageCall Call) :=
  [.save, .load, .call (.encrypt [0x68] fun _ => 2), .call (.encrypt [0x69] fun _ => 2)]

/-- The two carry one number after the other, and nothing is sent twice. -/
theorem no_number_sent_twice_sample : ∃ s rng',
    establishInitiator Sample.primitives ⟨Vector.replicate 32 5⟩
      ((Store.createPrekeys Sample.primitives ⟨Vector.replicate 32 7⟩ 1 fun _ => 1).1.publish
        Sample.primitives) (fun _ => 6) = (.ok s, rng') ∧
    let past := (eventsAlong Sample.primitives (bytesStorage Sample.primitives) s
      resumed).filterMap Machine.StorageEvent.inner
    past.filterMap Triple.Event.pqPair = [(0, 1), (0, 2)] ∧
      Triple.SentOnce Sample.kdf s.triple.sendingPublic past := by
  have accepted : (establishInitiator Sample.primitives ⟨Vector.replicate 32 5⟩
      ((Store.createPrekeys Sample.primitives ⟨Vector.replicate 32 7⟩ 1 fun _ => 1).1.publish
        Sample.primitives) (fun _ => 6)).1.toOption.map (fun s =>
          let events := eventsAlong Sample.primitives (bytesStorage Sample.primitives) s resumed
          (events.all fun e => e.inner.isSome, (events.filterMap
            Machine.StorageEvent.inner).filterMap Triple.Event.pqPair)) =
      some (true, [(0, 1), (0, 2)]) := by
    decide +kernel
  cases ran : establishInitiator Sample.primitives ⟨Vector.replicate 32 5⟩
      ((Store.createPrekeys Sample.primitives ⟨Vector.replicate 32 7⟩ 1 fun _ => 1).1.publish
        Sample.primitives) (fun _ => 6) with
  | mk outcome rng' =>
      rw [ran] at accepted
      cases outcome with
      | error e => cases accepted
      | ok s =>
          obtain ⟨inner, numbers⟩ := Prod.mk.inj (Option.some.inj accepted)
          obtain ⟨-, once, restores, -⟩ := no_number_sent_twice
          refine ⟨s, rng', rfl, numbers, once _ _ _ (bytesStorage Sample.primitives) s
            (.initiator ran) (restores _ s (Sample.dh_honest id) (Sample.incKem_honest id).toWellFormed
              Sample.kdf_sized (Sample.kem_honest id).ciphertext_length (.initiator ran)) resumed ?_⟩
          intro back
          have some_ := List.all_eq_true.1 inner _ back
          cases some_

/-- An import that takes back an encrypt: the next one carries the same numbers. -/
theorem rollback_reuses_number : ∃ s rng',
    establishInitiator Sample.primitives ⟨Vector.replicate 32 5⟩
      ((Store.createPrekeys Sample.primitives ⟨Vector.replicate 32 7⟩ 1 fun _ => 1).1.publish
        Sample.primitives) (fun _ => 6) = (.ok s, rng') ∧
    ¬ (((eventsAlong Sample.primitives (bytesStorage Sample.primitives) s
      [.save, .call (.encrypt [0x68] fun _ => 2), .load,
        .call (.encrypt [0x69] fun _ => 2)]).filterMap Machine.StorageEvent.inner).filterMap
          Triple.Event.pqPair).Nodup := by
  have accepted : (establishInitiator Sample.primitives ⟨Vector.replicate 32 5⟩
      ((Store.createPrekeys Sample.primitives ⟨Vector.replicate 32 7⟩ 1 fun _ => 1).1.publish
        Sample.primitives) (fun _ => 6)).1.toOption.map (fun s =>
          ((eventsAlong Sample.primitives (bytesStorage Sample.primitives) s
            [.save, .call (.encrypt [0x68] fun _ => 2), .load,
              .call (.encrypt [0x69] fun _ => 2)]).filterMap Machine.StorageEvent.inner).filterMap
                Triple.Event.pqPair) = some [(0, 1), (0, 1)] := by
    decide +kernel
  revert accepted
  generalize establishInitiator Sample.primitives _ _ _ = result
  obtain ⟨outcome, rng'⟩ := result
  intro accepted
  cases outcome with
  | error e => simp [Except.toOption] at accepted
  | ok s =>
      simp only [Except.toOption, Option.map_some, Option.some.injEq] at accepted
      exact ⟨s, rng', rfl, by rw [accepted]; decide⟩

end Tacenta.Session
