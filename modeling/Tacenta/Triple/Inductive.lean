/-
# Tacenta.Triple.Inductive -- the composition's invariant at every exit

`sparse_invariant_inductive`: the sparse ratchet's invariant holds at `init` and
is kept by every call with any argument, refused or not; the Triple Ratchet's is
established by both constructors and kept by every call, on canonical
Diffie-Hellman public keys.  The classical half stores the keys its caller hands
it, so without that its invariant is lost (`noncanonical_keys_refute`): the
session decodes or computes every key it hands down.

Along every run of a sparse ratchet more holds than the decoder checks: stored
numbers lie between one and their epoch's receive counter, and their epochs have
both chains.
-/
import Tacenta.Sample
import Tacenta.Spqr.Runs
import Tacenta.Triple.Invariant

set_option autoImplicit false

namespace Tacenta.Triple

variable {K : Type} {kdf : Kdf K}

/-- A refused send changes nothing. -/
theorem State.send_error {s s' : State K} {epoch : UInt64} {output : Option (Spqr.Output K)}
    {e : TripleError} (refused : s.send kdf epoch output = (s', .error e)) : s' = s := by
  unfold State.send at refused
  split at refused
  · exact (Prod.mk.inj refused).1.symm
  · split at refused
    · exact (Prod.mk.inj refused).1.symm
    · simp at refused

/-- **Sending keeps the invariant**, on every exit. -/
theorem Valid.sendLeft {s : State K} (valid : Valid s) (kdf : Kdf K) (epoch : UInt64)
    (output : Option (Spqr.Output K)) : Valid (s.send kdf epoch output).1 := by
  cases ran : s.send kdf epoch output with
  | mk left result =>
      cases result with
      | error e =>
          rw [State.send_error ran]
          exact valid
      | ok sent => exact (valid.send ran).1

theorem evictOldestClassical_thinned (s : State K) (count : Nat) :
    Thinned s (s.evictOldestClassical count).1 :=
  ⟨⟨_, Ratchet.eraseIdx_evictOldest_sublist count _, rfl⟩, ⟨_, .refl _, rfl⟩⟩

theorem evictOldestPostQuantum_thinned (s : State K) (count : Nat) :
    Thinned s (s.evictOldestPostQuantum count).1 :=
  ⟨⟨_, .refl _, rfl⟩, ⟨_, List.drop_sublist _ _, rfl⟩⟩

/-- A receiver set up on a key with the top bit set, and a receiver that a
message under such a key reaches: the invariant fails. -/
theorem noncanonical_keys_refute :
    (State.initReceiver Sample.kdf [] (Vector.replicate 32 0xff) .tacenta).invariant = false ∧
    (State.initReceiver Sample.kdf [] (Vector.replicate 32 0) .tacenta).invariant = true ∧
    ∃ s' key, (State.initReceiver Sample.kdf [] (Vector.replicate 32 0) .tacenta).receive Sample.kdf
        ⟨⟨Vector.replicate 32 0xff, 0, 0⟩, 0, 1⟩ (Vector.replicate 32 1) (Vector.replicate 32 2)
        (Vector.replicate 32 3) none = .ok (s', key) ∧ s'.invariant = false := by
  refine ⟨by decide +kernel, by decide +kernel, ?_⟩
  have outcome : ((State.initReceiver Sample.kdf [] (Vector.replicate 32 0) .tacenta).receive
      Sample.kdf ⟨⟨Vector.replicate 32 0xff, 0, 0⟩, 0, 1⟩ (Vector.replicate 32 1)
      (Vector.replicate 32 2) (Vector.replicate 32 3) none).toOption.map
        (fun left => left.1.invariant) = some false := by
    decide +kernel
  revert outcome
  generalize State.receive Sample.kdf _ _ _ _ _ _ = result
  intro outcome
  cases result with
  | error e => simp [Except.toOption] at outcome
  | ok left => exact ⟨left.1, left.2, rfl, by simpa [Except.toOption] using outcome⟩

/-- **The invariants are inductive.** -/
theorem sparse_invariant_inductive (kdf : Kdf K) :
    (∀ sk direction, (Spqr.State.init kdf sk direction).invariant = true) ∧
    (∀ s : Spqr.State K, s.invariant = true →
      (∀ epoch output, (s.send kdf epoch output).1.invariant = true) ∧
      (∀ epoch output n, (s.receive kdf epoch output n).1.invariant = true) ∧
      ∀ count, (s.evictOldest count).1.invariant = true) ∧
    (∀ sk ourPub peerPub dhOut labels, Curve.isCanonicalX25519 ourPub = true →
      Curve.isCanonicalX25519 peerPub = true →
        (State.initSender kdf sk ourPub peerPub dhOut labels).invariant = true) ∧
    (∀ sk ourPub labels, Curve.isCanonicalX25519 ourPub = true →
      (State.initReceiver kdf sk ourPub labels).invariant = true) ∧
    (∀ s : State K, s.invariant = true →
      (∀ epoch output, (s.send kdf epoch output).1.invariant = true) ∧
      (∀ epoch output e, (s.send kdf epoch output).2 = .error e →
        (s.send kdf epoch output).1 = s) ∧
      (∀ header dhOutRecv dhOutSend newDhsPub output s' key,
        Curve.isCanonicalX25519 header.dr.dh = true → Curve.isCanonicalX25519 newDhsPub = true →
          s.receive kdf header dhOutRecv dhOutSend newDhsPub output = .ok (s', key) →
            s'.invariant = true) ∧
      ∀ count, (s.evictOldestClassical count).1.invariant = true ∧
        (s.evictOldestPostQuantum count).1.invariant = true) ∧
    ∀ sk direction calls, let s := ((Spqr.State.call kdf).run (.init kdf sk direction) calls).1
      (∀ k ∈ s.skipped, ∃ n, s.receiveCount k.epoch = some n ∧ 1 ≤ k.n ∧ k.n ≤ n) ∧
      (∀ k ∈ s.skipped, ∃ send receive,
        s.findChains k.epoch = some { send := some send, receive := some receive }) ∧
      s.chains.length ≤ Spqr.epochsKept.toNat := by
  refine ⟨?_, ?_, ?_, ?_, ?_, ?_⟩
  · intro sk direction
    exact Spqr.State.invariant_iff.2 (Spqr.State.init_valid kdf sk direction)
  · intro s inv
    have valid := Spqr.State.invariant_iff.1 inv
    refine ⟨?_, ?_, ?_⟩
    · intro epoch output
      rw [← Spqr.State.call_send]
      exact Spqr.State.invariant_iff.2 (valid.call kdf _)
    · intro epoch output n
      rw [← Spqr.State.call_receive]
      exact Spqr.State.invariant_iff.2 (valid.call kdf _)
    · intro count
      exact Spqr.State.invariant_iff.2 (valid.call kdf (.evictOldest count))
  · intro sk ourPub peerPub dhOut labels ours theirs
    exact invariant_iff.2 (initSender_valid ours theirs)
  · intro sk ourPub labels ours
    exact invariant_iff.2 (initReceiver_valid ours)
  · intro s inv
    have valid := invariant_iff.1 inv
    refine ⟨?_, ?_, ?_, ?_⟩
    · intro epoch output
      exact invariant_iff.2 (valid.sendLeft kdf epoch output)
    · intro epoch output e refused
      exact State.send_error (Prod.ext rfl refused)
    · intro header dhOutRecv dhOutSend newDhsPub output s' key here fresh received
      exact invariant_iff.2 (valid.receive here fresh received).1
    · intro count
      exact ⟨invariant_iff.2 ((evictOldestClassical_thinned s count).valid valid),
        invariant_iff.2 ((evictOldestPostQuantum_thinned s count).valid valid)⟩
  · intro sk direction calls s
    have sound : Spqr.State.Sound s := (Spqr.State.run_served kdf sk direction calls).1
    refine ⟨?_, ?_, sound.valid.length_chains_le⟩
    · intro k member
      obtain ⟨ch, here, positive, behind⟩ := sound.stored k member
      exact ⟨ch.n, Spqr.State.receiveCount_eq_some.2 ⟨ch, here, rfl⟩,
        UInt64.le_iff_toNat_le.2 positive, UInt64.le_iff_toNat_le.2 behind⟩
    · intro k member
      obtain ⟨ch, here, -⟩ := sound.stored k member
      obtain ⟨cs, found, chain⟩ := Option.bind_eq_some_iff.1 here
      obtain ⟨send, hsend⟩ := Option.isSome_iff_exists.1 (sound.paired _ cs found).1
      refine ⟨send, ch, ?_⟩
      rw [found, ← hsend, ← chain]

/-- A responder on a canonical key, handed its peer's fourth message first. -/
def early : Except TripleError (State (Arr 32) × Arr 32) :=
  (State.initReceiver Sample.kdf [] (Sample.publicKey (Vector.replicate 32 2)) .tacenta).receive
    Sample.kdf ⟨⟨Sample.publicKey (Vector.replicate 32 3), 0, 3⟩, 0, 4⟩ (Vector.replicate 32 4)
    (Vector.replicate 32 5) (Sample.publicKey (Vector.replicate 32 6)) none

/-- Each ratchet stores three keys; the invariant holds, and after an eviction too. -/
theorem sparse_invariant_inductive_early : ∃ s key, early = .ok (s, key) ∧
    s.classical.skipped.length = 3 ∧ s.postQuantum.skipped.length = 3 ∧ s.invariant = true ∧
    (s.evictOldestPostQuantum 2).1.invariant = true := by
  have stores : early.toOption.map (fun answer =>
      (answer.1.classical.skipped.length, answer.1.postQuantum.skipped.length)) = some (3, 3) := by
    decide +kernel
  cases ran : early with
  | error e =>
      rw [ran] at stores
      cases stores
  | ok answer =>
      rw [ran] at stores
      obtain ⟨classical, sparse⟩ := Prod.mk.inj (Option.some.inj stores)
      obtain ⟨-, -, -, receiver, each, -⟩ := sparse_invariant_inductive Sample.kdf
      have start := receiver [] _ .tacenta (Sample.publicKey_canonical (Vector.replicate 32 2))
      have inv : answer.1.invariant = true := (each _ start).2.2.1 _ _ _ _ _ _ answer.2
        (Sample.publicKey_canonical _) (Sample.publicKey_canonical _) ran
      exact ⟨answer.1, answer.2, rfl, classical, sparse, inv, ((each _ inv).2.2.2 2).2⟩

end Tacenta.Triple
