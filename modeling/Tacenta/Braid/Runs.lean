/-
# Tacenta.Braid.Runs -- an agreement over whole runs

`move` is the agreement as a machine: any sends and receives in any order, with
any message a caller hands it, and the outputs it answers with.

* `run_valid`: every state reached satisfies the invariant and what storing one
  needs;
* `run_along`: the role is the constructor's until the agreement fails, the epoch
  is never the reserved one, and the outputs are those of epochs `1, 2, 3, …`;
* `run_climbs`: a live agreement has not gone back an epoch, and no step takes it
  up more than one.
-/
import Tacenta.Braid.Codec
import Tacenta.Runs
import Tacenta.Sample

set_option autoImplicit false
set_option linter.dupNamespace false

namespace Tacenta.Braid

open Tacenta.Kem
open State (Stored Valid)

variable {K : Type} {kdf : Kdf K} {ikem : IncKem K} {b : Braid K}

/-- What a caller asks of an agreement. -/
inductive Move where
  | send (rng : Rng)
  | receive (msg : Msg)

/-- The agreement a move leaves, and the output it answers with. -/
def move (kdf : Kdf K) (ikem : IncKem K) : Machine (Braid K) Move (Output K)
  | b, .send rng => ((b.send kdf ikem rng).2.2.2.1, (b.send kdf ikem rng).2.2.1.toList)
  | b, .receive msg => ((b.receive kdf ikem msg).2.2, (b.receive kdf ikem msg).2.1.toList)

/-- One side of an agreement, as its constructor builds it. -/
def start (kdf : Kdf K) (secret : Bytes) : Bool → Braid K
  | true => Braid.initiator kdf secret
  | false => Braid.responder kdf secret

/-! ## One move -/

theorem Takes.epoch_le_succ {msg : Msg} {st st' : State K} {out : Option (Output K)}
    (takes : Takes kdf ikem msg st out st') (alive : st' ≠ .failed) :
    st'.epoch.toNat ≤ st.epoch.toNat + 1 := by
  cases takes with
  | ekInvalid | lateInvalid | ceiling => exact absurd rfl alive
  | ct2Complete =>
      obtain ⟨next, raw, climbs, -, -, same⟩ := completeEpoch_alive alive
      rw [same]
      exact climbs.le
  | headerComplete =>
      rw [(acceptHeader_alive alive).2]
      exact Nat.le_succ _
  | ekCompleteAcked | acknowledged | lateComplete =>
      rw [(finishEncaps_emitted alive).2]
      exact Nat.le_succ _
  | swapped climbs => exact climbs.le
  | _ => exact Nat.le_succ _

/-- The reserved epoch is not reached: both transitions that move the epoch
refuse it. -/
theorem Takes.epoch_below {msg : Msg} {st st' : State K} {out : Option (Output K)}
    (takes : Takes kdf ikem msg st out st') (alive : st' ≠ .failed)
    (below : st.epoch ≠ UInt64.maxValue) : st'.epoch ≠ UInt64.maxValue := by
  cases takes with
  | ekInvalid | lateInvalid | ceiling => exact absurd rfl alive
  | ct2Complete =>
      obtain ⟨next, raw, -, below, -, same⟩ := completeEpoch_alive alive
      rw [same]
      exact below
  | headerComplete =>
      rw [(acceptHeader_alive alive).2]
      exact below
  | ekCompleteAcked | acknowledged | lateComplete =>
      rw [(finishEncaps_emitted alive).2]
      exact below
  | swapped _ open_ => exact open_
  | _ => exact below

/-- What a move does to a live agreement it leaves alive. -/
structure Steps (st st' : State K) (out : Option (Output K)) : Prop where
  role : st'.isInitiator = st.isInitiator
  climbs : st.epoch ≤ st'.epoch
  byOne : st'.epoch.toNat ≤ st.epoch.toNat + 1
  below : st.epoch ≠ UInt64.maxValue → st'.epoch ≠ UInt64.maxValue
  emits : EmitsNext st st' out

theorem stepSend_steps {st : State K} (positive : 1 ≤ st.epoch) (rng : Rng)
    (alive : (stepSend kdf ikem rng st).2.2.1 ≠ .failed) :
    Steps st (stepSend kdf ikem rng st).2.2.1 (stepSend kdf ikem rng st).2.1 := by
  obtain ⟨same, emits⟩ := stepSend_emitted positive rng alive
  exact ⟨stepSend_isInitiator rng alive, same ▸ UInt64.le_refl _, by rw [same]; exact Nat.le_succ _,
    fun below => same ▸ below, emits⟩

theorem Takes.steps {msg : Msg} {st st' : State K} {out : Option (Output K)}
    (takes : Takes kdf ikem msg st out st') (positive : 1 ≤ st.epoch) (alive : st' ≠ .failed) :
    Steps st st' out :=
  ⟨takes.isInitiator alive, (takes.emitted positive alive).1, takes.epoch_le_succ alive,
    takes.epoch_below alive, (takes.emitted positive alive).2⟩

/-- The state and the output of a move, on the bare state. -/
def stepOf (kdf : Kdf K) (ikem : IncKem K) (st : State K) : Move → Option (Output K) × State K
  | .send rng => ((stepSend kdf ikem rng st).2.1, (stepSend kdf ikem rng st).2.2.1)
  | .receive msg => stepReceive kdf ikem msg st

theorem move_eq (b : Braid K) (m : Move) :
    move kdf ikem b m = (⟨(stepOf kdf ikem b.state m).2⟩, (stepOf kdf ikem b.state m).1.toList) := by
  cases m with
  | send rng => rfl
  | receive msg =>
      have answer := receive_snd kdf ikem b msg
      simp only [move, stepOf, answer]

theorem stepOf_steps {st : State K} (positive : 1 ≤ st.epoch) (m : Move)
    (alive : (stepOf kdf ikem st m).2 ≠ .failed) :
    Steps st (stepOf kdf ikem st m).2 (stepOf kdf ikem st m).1 := by
  cases m with
  | send rng => exact stepSend_steps positive rng alive
  | receive msg => exact (stepReceive_takes kdf ikem msg st).steps positive alive

/-- **A failed agreement stays failed**, and answers with nothing. -/
theorem stepOf_failed (m : Move) : stepOf kdf ikem (.failed : State K) m = (none, .failed) := by
  cases m <;> rfl

/-- A move that ends the agreement answers with nothing. -/
theorem stepOf_ends {st : State K} (m : Move) (dead : (stepOf kdf ikem st m).2 = .failed) :
    (stepOf kdf ikem st m).1 = none := by
  cases out : (stepOf kdf ikem st m).1 with
  | none => rfl
  | some o =>
      exfalso
      cases m with
      | receive msg => exact (stepReceive_output out).2 dead
      | send rng =>
          cases st with
          | headerReceived epoch auth header ekDec =>
              simp only [stepOf, stepSend] at out dead
              cases sampled : encapsulate1 ikem header rng with
              | mk result rng' =>
                  rw [sampled] at out dead
                  cases result with
                  | none => simp at out
                  | some drawn => simp at dead
          | keysUnsampled epoch auth =>
              simp only [stepOf, stepSend] at out
              cases generated : IncrementalKeyPair.generate ikem rng with
              | mk result rng' =>
                  rw [generated] at out
                  cases result <;> simp at out
          | _ => simp [stepOf, stepSend] at out

/-! ## Whole runs -/

/-- What holds of an agreement on this side after these outputs. -/
structure Along (role : Bool) (past : List (Output K)) (b : Braid K) : Prop where
  below : b.epoch ≠ UInt64.maxValue
  positive : b.state ≠ .failed → 1 ≤ b.epoch
  role : b.state ≠ .failed → b.isInitiator = some role
  emitted : b.state ≠ .failed → b.state.emitted = past.length
  outputs : past.map (fun o => o.keyEpoch.toNat) = List.range' 1 past.length

theorem start_epoch (secret : Bytes) (role : Bool) : (start kdf secret role).epoch = 1 := by
  cases role <;> rfl

theorem start_along (secret : Bytes) (role : Bool) : Along role [] (start kdf secret role) := by
  refine ⟨?_, fun _ => ?_, fun _ => ?_, fun _ => ?_, rfl⟩
  · rw [start_epoch]
    decide
  · rw [start_epoch]
    decide
  · cases role <;> rfl
  · cases role <;> rfl

theorem move_along (role : Bool) :
    (move kdf ikem).Keeps (fun _ => True) (Along (K := K) role) := by
  intro past b m _ along
  rw [move_eq]
  obtain ⟨st⟩ := b
  by_cases alive : (stepOf kdf ikem st m).2 = .failed
  · rw [stepOf_ends m alive, alive]
    refine ⟨by show (0 : UInt64) ≠ UInt64.maxValue; decide, fun h => absurd rfl h,
      fun h => absurd rfl h, fun h => absurd rfl h, ?_⟩
    simpa using along.outputs
  · have before : st ≠ .failed := by
      rintro rfl
      exact alive (by rw [stepOf_failed])
    have positive := along.positive before
    have steps := stepOf_steps positive m alive
    have climbs := steps.climbs
    rw [UInt64.le_iff_toNat_le] at climbs
    refine ⟨steps.below along.below, fun _ => ?_, fun _ => steps.role.trans (along.role before),
      ?_, ?_⟩
    · exact UInt64.le_trans positive steps.climbs
    · intro _
      obtain ⟨none_, kept⟩ | ⟨o, found, -, counts⟩ := steps.emits
      · simp only [none_, Option.toList_none, List.append_nil, kept]
        exact along.emitted before
      · simp only [found, Option.toList_some, List.length_append, List.length_singleton, counts]
        rw [show st.emitted = past.length from along.emitted before]
    · obtain ⟨none_, -⟩ | ⟨o, found, next, -⟩ := steps.emits
      · simpa only [none_, Option.toList_none, List.append_nil] using along.outputs
      · have counted : st.emitted = past.length := along.emitted before
        rw [counted] at next
        simp only [found, Option.toList_some, List.map_append, List.map_cons, List.map_nil,
          List.length_append, List.length_singleton, along.outputs, next]
        rw [List.range'_concat]
        simp [Nat.add_comm]

/-- **Along every run**: the role, the epochs and the outputs. -/
theorem run_along (secret : Bytes) (role : Bool) (moves : List Move) :
    Along role ((move kdf ikem).run (start kdf secret role) moves).2
      ((move kdf ikem).run (start kdf secret role) moves).1 := by
  have keeps : (move kdf ikem).Keeps (fun _ => True) (Along role) := move_along role
  have began : Along role [] (start kdf secret role) := start_along secret role
  have along := @Machine.Keeps.run _ _ _ _ _ _ keeps [] _ began moves fun _ _ => trivial
  rwa [List.nil_append] at along

/-- **A live agreement was live before, and has not gone back an epoch.** -/
theorem run_climbs {b : Braid K} (positive : b.state ≠ .failed → 1 ≤ b.epoch) (rest : List Move)
    (alive : ((move kdf ikem).run b rest).1.state ≠ .failed) :
    b.state ≠ .failed ∧ b.epoch ≤ ((move kdf ikem).run b rest).1.epoch := by
  induction rest generalizing b with
  | nil => exact ⟨alive, UInt64.le_refl _⟩
  | cons m later ih =>
      obtain ⟨st⟩ := b
      rw [Machine.run_cons, move_eq] at alive ⊢
      simp only at alive ⊢
      by_cases dead : (stepOf kdf ikem st m).2 = .failed
      · have absurd_ := (ih (b := ⟨(stepOf kdf ikem st m).2⟩) (fun h => absurd dead h) alive).1
        exact absurd dead absurd_
      · have before : st ≠ .failed := by
          rintro rfl
          exact dead (by rw [stepOf_failed])
        have one := positive before
        have steps := stepOf_steps one m dead
        have rest_ := ih (b := ⟨(stepOf kdf ikem st m).2⟩)
          (fun _ => UInt64.le_trans one steps.climbs) alive
        exact ⟨before, UInt64.le_trans steps.climbs rest_.2⟩

/-! ## The invariant -/

theorem start_valid (secret : Bytes) (role : Bool) :
    Valid ikem (start kdf secret role).state ∧ Stored (start kdf secret role).state := by
  cases role with
  | true =>
      exact ⟨by simp [start, Braid.initiator, Valid, Braid.invariant],
        (by decide : (1 : UInt64) ≠ UInt64.maxValue), by simp [start, Braid.initiator, State.keyPair],
        by simp [start, Braid.initiator, State.encapsState]⟩
  | false =>
      exact ⟨by simp [start, Braid.responder, Valid, Braid.invariant, hdrDecoder_invariant]; decide,
        (by decide : (1 : UInt64) ≠ UInt64.maxValue), by simp [start, Braid.responder, State.keyPair],
        by simp [start, Braid.responder, State.encapsState]⟩

/-- **Every state reached satisfies the invariant**, and can be stored. -/
theorem run_valid (wf : ikem.WellFormed) (sized : kdf.Sized) (secret : Bytes) (role : Bool)
    (moves : List Move) :
    Valid ikem ((move kdf ikem).run (start kdf secret role) moves).1.state ∧
      Stored ((move kdf ikem).run (start kdf secret role) moves).1.state := by
  have keeps : (move kdf ikem).Keeps (fun _ => True) fun _ b => Valid ikem b.state ∧ Stored b.state := by
    rintro past b m - ⟨valid, stored⟩
    rw [move_eq]
    cases m with
    | send rng => exact ⟨stepSend_invariant wf sized valid rng, stepSend_stored wf stored rng⟩
    | receive msg => exact ⟨stepReceive_invariant wf sized valid msg, stepReceive_stored stored msg⟩
  have began : Valid ikem (start kdf secret role).state ∧ Stored (start kdf secret role).state :=
    start_valid secret role
  exact @Machine.Keeps.run _ _ _ _ _ _ keeps [] _ began moves fun _ _ => trivial

/-! ## The role, the epochs, the outputs and the invariant together -/

/-- The lengths the KEM declares, and nothing about the values. -/
structure DeclaredLengths (ikem : IncKem K) : Prop where
  keyPair : ∀ seed kp, ikem.generateKeyPair seed = some kp → kp.length = keyPairLen
  header : ∀ kp, (ikem.pk1 kp).length = headerLen
  ekVector : ∀ kp, (ikem.pk2 kp).length = ekVectorLen
  state : ∀ header r st ct1 ss, ikem.encapsulate1 header r = some (st, ct1, ss) →
    st.length = encapsStateLen
  ct1 : ∀ header r st ct1 ss, ikem.encapsulate1 header r = some (st, ct1, ss) → ct1.length = ct1Len
  ct2 : ∀ st ek, (ikem.encapsulate2 st ek).length = ct2Len

theorem wellFormed_of_lengths (lengths : DeclaredLengths ikem)
    (valid : ∀ seed kp, ikem.generateKeyPair seed = some kp →
      ikem.validatePkBytes (ikem.pk1 kp) (ikem.pk2 kp) = true) : ikem.WellFormed :=
  ⟨lengths.keyPair, lengths.header, lengths.ekVector, valid, lengths.state, lengths.ct1, lengths.ct2⟩

/-- **The discipline of every run.**  After any moves from either constructor: the
epoch is not the reserved one; a live agreement has its constructor's role; each
epoch has at most one output, the outputs being those of epochs `1, 2, 3, …`; a
failed agreement ignores every move; a move that leaves the agreement alive takes
it up one epoch at most, and an agreement alive later is not at an earlier epoch
then.  With a KEM whose results have the declared lengths and whose generated
pairs pass their own key check, every state reached satisfies the invariant and is
read back from its own bytes. -/
theorem braid_run_discipline :
    (∀ (K : Type) (kdf : Kdf K) (ikem : IncKem K) (secret : Bytes) (role : Bool) (moves : List Move)
      (b : Braid K) (outputs : List (Output K)),
      (move kdf ikem).run (start kdf secret role) moves = (b, outputs) →
        b.epoch ≠ UInt64.maxValue ∧
        (b.failed = false → b.isInitiator = some role) ∧
        outputs.map (fun o => o.keyEpoch.toNat) = List.range' 1 outputs.length ∧
        (outputs.map Output.keyEpoch).Nodup ∧
        (b.failed = true → ∀ m, move kdf ikem b m = (b, [])) ∧
        (∀ m, (move kdf ikem b m).1.failed = false →
          (move kdf ikem b m).1.epoch.toNat ≤ b.epoch.toNat + 1) ∧
        ∀ rest, ((move kdf ikem).run b rest).1.failed = false →
          b.failed = false ∧ b.epoch ≤ ((move kdf ikem).run b rest).1.epoch) ∧
    (∀ (K : Type) (kdf : Kdf K) (ikem : IncKem K), kdf.Sized → DeclaredLengths ikem →
      (∀ seed kp, ikem.generateKeyPair seed = some kp →
        ikem.validatePkBytes (ikem.pk1 kp) (ikem.pk2 kp) = true) →
      ∀ secret role moves,
        ((move kdf ikem).run (start kdf secret role) moves).1.invariant ikem = true) ∧
    (∀ (kdf : Kdf Secret) (ikem : IncKem Secret), kdf.Sized → DeclaredLengths ikem →
      (∀ seed kp, ikem.generateKeyPair seed = some kp →
        ikem.validatePkBytes (ikem.pk1 kp) (ikem.pk2 kp) = true) →
      ∀ secret role moves b outputs,
        (move kdf ikem).run (start kdf secret role) moves = (b, outputs) →
          Braid.fromBytes ikem b.toBytes = .ok b) := by
  refine ⟨?_, ?_, ?_⟩
  · intro K kdf ikem secret role moves b outputs ran
    have along : Along role outputs b := by
      have here : Along role ((move kdf ikem).run (start kdf secret role) moves).2
          ((move kdf ikem).run (start kdf secret role) moves).1 := run_along secret role moves
      rwa [ran] at here
    refine ⟨along.below, fun alive => along.role (alive_iff.1 alive), along.outputs, ?_, ?_, ?_, ?_⟩
    · have distinct : (outputs.map fun o => o.keyEpoch.toNat).Nodup := by
        rw [along.outputs]
        exact List.nodup_range'
      refine List.Nodup.of_map UInt64.toNat ?_
      rwa [List.map_map]
    · intro dead m
      obtain ⟨st⟩ := b
      have same : st = .failed := failed_iff.1 dead
      rw [move_eq, same, stepOf_failed]
      rfl
    · intro m alive
      rw [alive_iff] at alive
      have before : b.state ≠ .failed :=
        (run_climbs along.positive [m] (by simpa [Machine.run_cons] using alive)).1
      rw [move_eq] at alive ⊢
      exact (stepOf_steps (along.positive before) m alive).byOne
    · intro rest alive
      obtain ⟨before, climbs⟩ := run_climbs along.positive rest (alive_iff.1 alive)
      exact ⟨alive_iff.2 before, climbs⟩
  · intro K kdf ikem sized lengths pairs secret role moves
    exact (run_valid (wellFormed_of_lengths lengths pairs) sized secret role moves).1
  · intro kdf ikem sized lengths pairs secret role moves b outputs ran
    obtain ⟨valid, stored⟩ := run_valid (wellFormed_of_lengths lengths pairs) sized secret role moves
    rw [ran] at valid stored
    exact Braid.fromBytes_toBytes valid stored

/-- An initiator that has sent its header's first codeword and been handed one of
`ct1`. -/
def begun : Braid Secret × List (Output Secret) :=
  (move Sample.kdf (Sample.incKem id)).run (start Sample.kdf [] true)
    [.send fun _ => 0, .receive ⟨1, .ct1, some ⟨5, Vector.replicate 32 9⟩⟩]

/-- It is within the invariant, below the last epoch, and stored and restored. -/
theorem braid_run_discipline_begun : begun.1.epoch ≠ UInt64.maxValue ∧
    begun.1.invariant (Sample.incKem id) = true ∧
    Braid.fromBytes (Sample.incKem id) begun.1.toBytes = .ok begun.1 := by
  have honest := Sample.incKem_honest (id : Arr 32 → Secret)
  have lengths : DeclaredLengths (Sample.incKem (id : Arr 32 → Secret)) :=
    ⟨honest.keyPair_length, honest.header_length, honest.ekVector_length, honest.state_length,
      honest.ct1_length, honest.ct2_length⟩
  obtain ⟨discipline, invariant_, restored⟩ := braid_run_discipline
  exact ⟨(discipline _ _ _ _ _ _ _ _ rfl).1,
    invariant_ _ _ _ Sample.kdf_sized lengths honest.keyPair_valid _ _ _,
    restored _ _ Sample.kdf_sized lengths honest.keyPair_valid _ _ _ _ _ rfl⟩

/-- A KEM with the declared lengths whose key pairs fail their own check. -/
def mismatched : IncKem Secret :=
  { Sample.incKem id with validatePkBytes := fun _ _ => false }

/-- With such a KEM the first send of an initiator leaves a state that fails the
invariant. -/
theorem mismatched_pair_breaks_invariant : DeclaredLengths mismatched ∧
    ((move Sample.kdf mismatched).run (start Sample.kdf [] true)
      [.send fun _ => 0]).1.invariant mismatched = false := by
  have honest := Sample.incKem_honest (id : Arr 32 → Secret)
  refine ⟨⟨honest.keyPair_length, honest.header_length, honest.ekVector_length, honest.state_length,
    honest.ct1_length, honest.ct2_length⟩, ?_⟩
  show (Braid.invariant mismatched ⟨.keysSampled ..⟩) = false
  simp [Braid.invariant, keyPairValid, validateEk, mismatched]

end Tacenta.Braid
