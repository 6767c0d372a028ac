/-
# Tacenta.Session.EvictionBounds -- an eviction takes what the message displaces

The first batch is the excess of the keys held plus the keys the header skips over
the bound.  On the current chain, and for an epoch whose chain is open before the
fold, a store that refuses refuses by exactly that figure or less, so the one
eviction it needs is the first (`Retried.classical_taken`, `Retried.sparse_taken`).

In a state a run reaches no key held is one the message skips, so a message that
is answered needed all of it: the figure is exact.  In any valid state the sparse
figure is at most `held + MAX_SKIP - MAX_SKIPPED_STORE`, fold or not, and leaves
`MAX_SKIPPED_STORE - MAX_SKIP` keys.
-/
import Tacenta.Session.Eviction
import Tacenta.Triple.Runs

set_option autoImplicit false

namespace Tacenta

variable {K : Type} {kdf : Kdf K}

namespace Ratchet

variable {s s' : State K} {header : Header} {dhOutRecv dhOutSend : K} {newDhsPub : Arr 32}

/-- What a full store says of a header on the current chain. -/
theorem excess_of_receive_full (peer : s.dhrPub = some header.dh)
    (full : (receive kdf s header dhOutRecv dhOutSend newDhsPub).2 = .error .skippedStoreFull) :
    header.n.toNat - s.nr.toNat ≤ maxSkip.toNat ∧
      maxSkippedStore < s.skipped.length + (header.n.toNat - s.nr.toNat) := by
  obtain ⟨-, ⟨-, other⟩ | ⟨mid, entered, second⟩⟩ := receive_full full
  · exact absurd peer other
  · rw [enterChain_same peer, Prod.mk.injEq] at entered
    rw [← entered.1] at second
    obtain ⟨dhr, -, near, over_⟩ := skipMessageKeys_full second
    have less := surviving_le s.skipped dhr s.nr header.n
    omega

/-- A message answered on the current chain had room, where no key stored under
the chain is ahead of it. -/
theorem room_of_receive {past : List (State.Event K)} {mk : K} (tracked : State.Tracked past s)
    (bounded : s.skipped.length ≤ maxSkippedStore) (peer : s.dhrPub = some header.dh)
    (received : receive kdf s header dhOutRecv dhOutSend newDhsPub = (s', .ok mk)) :
    s.skipped.length + (header.n.toNat - s.nr.toNat) ≤ maxSkippedStore := by
  obtain ⟨left, stored, -⟩ | ⟨-, mid, entered, advanced⟩ := receive_ok received
  · -- A stored number is behind the counter, and nothing is skipped.
    obtain ⟨found, taken, -⟩ := Option.map_eq_some_iff.1 stored
    obtain ⟨member, named⟩ := takeFirst_mem taken
    rw [SkippedKey.named, decide_eq_true_eq] at named
    have behind := tracked.behind found.1 member (by rw [named.1, peer])
    rw [named.2] at behind
    omega
  · rw [enterChain_same peer, Prod.mk.injEq] at entered
    rw [← entered.1] at advanced
    obtain ⟨after, ck, next, skipped, -, chain, -⟩ := advanceChain_ok advanced
    obtain ⟨same, still⟩ | ⟨ck', dhr, -, peer', -, -, room, -⟩ := skipMessageKeys_ok skipped
    · rw [same] at chain
      have behind : header.n ≤ s.nr := by simpa [chain, peer] using still
      rw [UInt32.le_iff_toNat_le] at behind
      omega
    · have kept : (purgeChainRange s.skipped dhr s.nr header.n).length = s.skipped.length := by
        rw [length_purgeChainRange, surviving, List.countP_eq_length]
        intro k member
        have outside : ¬ (k.dh = dhr ∧ s.nr.toNat ≤ k.n.toNat ∧ k.n.toNat < header.n.toNat) := by
          rintro ⟨here, above, -⟩
          have behind := tracked.behind k member (by rw [here, peer'])
          omega
        rw [SkippedKey.passed, decide_eq_false outside]
        rfl
      rw [kept] at room
      exact room

end Ratchet

namespace Spqr.State

variable {s s' : State K} {e n : UInt64} {ch : Chain K}

/-- What a full store says of a header whose epoch has a chain before the fold. -/
theorem excess_of_receive_full {output : Option (Output K)} (old : e.toNat ≤ s.epoch.toNat)
    (opened : s.receiveChain e = some ch)
    (full : (s.receive kdf e output n).2 = .error .skippedStoreFull) :
    n.toNat - 1 - ch.n.toNat ≤ maxSkip.toNat ∧
      maxSkippedStore < s.skipped.length + (n.toNat - 1 - ch.n.toNat) := by
  obtain ⟨mid, advanced, -, refused⟩ := receive_full full
  obtain ⟨cs, ch', found, chain, near, over_⟩ := skipMessageKeys_full refused
  have less := surviving_le mid.skipped e ch'.n (n.saturatingSub 1)
  have folded := (maybeAdvance_sublist advanced).length_le
  have same : ch' = ch := by
    have here : mid.receiveChain e = some ch' := by rw [receiveChain_of found, chain]
    obtain ⟨-, rfl⟩ | ⟨o, -, advanced⟩ := maybeAdvance_ok advanced
    · exact Option.some.inj (here.symm.trans opened)
    · obtain ⟨below, next, rfl⟩ := advance_ok advanced
      exact Option.some.inj ((receiveChain_folded_old below next old here).symm.trans opened)
  rw [same, UInt64.toNat_saturatingSub, UInt64.toNat_one] at near over_
  rw [same] at less
  omega

/-- A message answered without a fold had room. -/
theorem room_of_receive {key : K} (sound : Sound s) (opened : s.receiveChain e = some ch)
    (received : s.receive kdf e none n = (s', .ok key)) :
    s.skipped.length + (n.toNat - 1 - ch.n.toNat) ≤ maxSkippedStore := by
  have bounded := sound.valid.bounded
  have folded : s.receiveFolded kdf e n = (s', .ok key) := received
  rcases receiveFolded_ok folded with stored | ⟨-, mid, skipped, -⟩
  · obtain ⟨k, left, taken, -, epoch, number, -⟩ := trySkipped_ok stored
    obtain ⟨ch', here, -, behind⟩ := sound.stored k (takeFirst_mem taken).1
    rw [epoch, opened, Option.some.injEq] at here
    rw [← here, number] at behind
    omega
  · obtain ⟨cs, ch', found, chain, rest⟩ := skipMessageKeys_ok skipped
    have same : ch' = ch := by
      rw [receiveChain_of found, chain] at opened
      exact Option.some.inj opened
    rw [same] at rest chain
    rcases rest with ⟨behind, -⟩ | ⟨-, -, room, -⟩
    · rw [UInt64.le_iff_toNat_le, UInt64.toNat_saturatingSub, UInt64.toNat_one] at behind
      omega
    · rw [sound.purge found chain, UInt64.toNat_saturatingSub, UInt64.toNat_one] at room
      exact room

end Spqr.State

namespace Session

open Triple (TripleError)
open Wire (Composite)

variable {composite : Composite} {dhOutRecv dhOutSend : K} {newDhsPub : Arr 32}
  {output : Option (Spqr.Output K)} {work last : Triple.State K} {half : FullStore} {batch : Nat}
  {log : List (FullStore × Nat)} {header : Triple.Header}

/-- The keys a header skips on the current classical chain. -/
def classicalSkip (state : Triple.State K) (composite : Composite) : Nat :=
  composite.n.toNat - state.receiveCount.toNat

/-- The keys a header skips on the chain of its epoch, which has produced `received`. -/
def sparseSkip (received : UInt64) (composite : Composite) : Nat :=
  composite.pqN.toNat - 1 - received.toNat

theorem Retried.full
    (retried : Retried kdf composite header dhOutRecv dhOutSend newDhsPub output work half batch log
      last) : Full half (work.receive kdf header dhOutRecv dhOutSend newDhsPub output) := by
  cases retried with
  | done full => exact full
  | again full => exact full

/-- The classical half runs first: where the sparse store is the full one, the
classical one is not, before the eviction and after. -/
theorem not_full_classical
    (full : Full .postQuantum (work.receive kdf header dhOutRecv dhOutSend newDhsPub output)) :
    ¬ Full .classical ((evictForRetry work .postQuantum batch).1.receive kdf header dhOutRecv
      dhOutSend newDhsPub output) := by
  intro next
  obtain ⟨left, mk, accepted⟩ := (full_postQuantum full).1
  have refused := full_classical next
  have same : (evictForRetry work .postQuantum batch).1.classical = work.classical := rfl
  rw [same, accepted] at refused
  simp at refused

/-- Once the sparse store is the full one, nothing more is taken from the classical one. -/
theorem Retried.classical_kept
    (retried : Retried kdf composite header dhOutRecv dhOutSend newDhsPub output work half batch log
      last) (sparse : half = .postQuantum) : takenFrom .classical log = 0 := by
  induction retried with
  | done => rw [sparse, takenFrom_cons, takenFrom_nil, if_neg (by decide)]
  | @again work half other batch log last full rest ih =>
      subst sparse
      cases other with
      | classical => exact absurd rest.full (not_full_classical full)
      | postQuantum =>
          rw [takenFrom_cons, ih rfl]
          rfl

theorem receiveShortfall_classical (state : Triple.State K) (composite : Composite) :
    receiveShortfall .classical state composite =
      max 1 (state.classicalSkippedLen + classicalSkip state composite - Ratchet.maxSkippedStore) :=
  rfl

theorem receiveShortfall_sparse {state : Triple.State K} {received : UInt64}
    (opened : state.postQuantumReceiveCount composite.pqEpoch = some received) :
    receiveShortfall .postQuantum state composite =
      max 1 (state.postQuantumSkippedLen + sparseSkip received composite - Spqr.maxSkippedStore) := by
  rw [receiveShortfall, opened]
  simp only [sparseSkip, UInt64.toNat_saturatingSub, UInt64.toNat_one]

/-- **What the classical store loses** to a header on the current chain: nothing,
or the excess. -/
theorem Retried.classical_taken
    (retried : Retried kdf composite (tripleHeaderOf composite) dhOutRecv dhOutSend newDhsPub output
      work half batch log last)
    (current : work.classical.dhrPub = some composite.dh)
    (sized : half = .classical → batch = receiveShortfall .classical work composite) :
    takenFrom .classical log = 0 ∨
      takenFrom .classical log =
        work.classicalSkippedLen + classicalSkip work composite - Ratchet.maxSkippedStore := by
  cases half with
  | postQuantum => exact .inl (retried.classical_kept rfl)
  | classical =>
      have excess : ∀ w : Triple.State K, w.classical.dhrPub = some composite.dh →
          Full .classical (w.receive kdf (tripleHeaderOf composite) dhOutRecv dhOutSend newDhsPub
            output) → classicalSkip w composite ≤ Ratchet.maxSkip.toNat ∧
          Ratchet.maxSkippedStore < w.classicalSkippedLen + classicalSkip w composite :=
        fun w here full => Ratchet.excess_of_receive_full here (full_classical full)
      have bound : Ratchet.maxSkip.toNat ≤ Ratchet.maxSkippedStore := by decide
      obtain ⟨near, over_⟩ := excess work current retried.full
      have count : (evictForRetry work .classical batch).2 =
          work.classicalSkippedLen + classicalSkip work composite - Ratchet.maxSkippedStore := by
        rw [(evictForRetry_eq work .classical batch).1, sized rfl, receiveShortfall_classical]
        show min _ work.classicalSkippedLen = _
        omega
      right
      cases retried with
      | done full room =>
          rw [takenFrom_cons, if_pos rfl, count, takenFrom_nil, Nat.add_zero]
      | @again _ _ other _ log _ full rest =>
          cases other with
          | postQuantum =>
              rw [takenFrom_cons, if_pos rfl, count, rest.classical_kept rfl, Nat.add_zero]
          | classical =>
              -- After the eviction the classical store has room for the header.
              obtain ⟨-, still⟩ := excess (evictForRetry work .classical batch).1 current rest.full
              have left := storedIn_evictForRetry work .classical .classical batch
              rw [if_pos rfl, count] at left
              have length : (evictForRetry work .classical batch).1.classicalSkippedLen = _ := left
              have same : classicalSkip (evictForRetry work .classical batch).1 composite =
                classicalSkip work composite := rfl
              have held : storedIn work .classical = work.classicalSkippedLen := rfl
              omega

/-- What a full sparse store says of a header whose epoch has a chain before the fold. -/
theorem sparse_excess {w : Triple.State K} {received : UInt64}
    (old : composite.pqEpoch.toNat ≤ w.postQuantum.epoch.toNat)
    (opened : w.postQuantumReceiveCount composite.pqEpoch = some received)
    (full : Full .postQuantum (w.receive kdf (tripleHeaderOf composite) dhOutRecv dhOutSend newDhsPub
      output)) :
    sparseSkip received composite ≤ Spqr.maxSkip.toNat ∧
      Spqr.maxSkippedStore < w.postQuantumSkippedLen + sparseSkip received composite := by
  obtain ⟨ch, chain, count⟩ := Spqr.State.receiveCount_eq_some.1 opened
  rw [← count]
  exact Spqr.State.excess_of_receive_full old chain (full_postQuantum full).2

/-- One round on the sparse store makes the room its message needs. -/
theorem Retried.sparse_round
    (retried : Retried kdf composite (tripleHeaderOf composite) dhOutRecv dhOutSend newDhsPub output
      work .postQuantum (receiveShortfall .postQuantum work composite) log last) {received : UInt64}
    (old : composite.pqEpoch.toNat ≤ work.postQuantum.epoch.toNat)
    (opened : work.postQuantumReceiveCount composite.pqEpoch = some received) :
    takenFrom .postQuantum log =
      work.postQuantumSkippedLen + sparseSkip received composite - Spqr.maxSkippedStore := by
  have bound : Spqr.maxSkip.toNat ≤ Spqr.maxSkippedStore := by decide
  obtain ⟨near, over_⟩ := sparse_excess old opened retried.full
  have count : (evictForRetry work .postQuantum
      (receiveShortfall .postQuantum work composite)).2 =
        work.postQuantumSkippedLen + sparseSkip received composite - Spqr.maxSkippedStore := by
    rw [(evictForRetry_eq work .postQuantum _).1, receiveShortfall_sparse opened]
    show min _ work.postQuantumSkippedLen = _
    omega
  cases retried with
  | done full room =>
      rw [takenFrom_cons, if_pos rfl, count, takenFrom_nil, Nat.add_zero]
  | @again _ _ other _ log _ full rest =>
      cases other with
      | classical => exact absurd rest.full (not_full_classical full)
      | postQuantum =>
          -- After the eviction the sparse store has room for the header.
          obtain ⟨-, still⟩ := sparse_excess (w := (evictForRetry work .postQuantum
            (receiveShortfall .postQuantum work composite)).1) old opened rest.full
          have left := storedIn_evictForRetry work .postQuantum .postQuantum
            (receiveShortfall .postQuantum work composite)
          rw [if_pos rfl, count] at left
          have length : (evictForRetry work .postQuantum
            (receiveShortfall .postQuantum work composite)).1.postQuantumSkippedLen = _ := left
          have held : storedIn work .postQuantum = work.postQuantumSkippedLen := rfl
          omega

/-- **What the sparse store loses** to a header whose epoch has a chain before the
fold: nothing, or the excess, which leaves room for the farthest skip. -/
theorem Retried.sparse_taken
    (retried : Retried kdf composite (tripleHeaderOf composite) dhOutRecv dhOutSend newDhsPub output
      work half batch log last) {received : UInt64}
    (old : composite.pqEpoch.toNat ≤ work.postQuantum.epoch.toNat)
    (opened : work.postQuantumReceiveCount composite.pqEpoch = some received)
    (sized : half = .postQuantum → batch = receiveShortfall .postQuantum work composite) :
    takenFrom .postQuantum log = 0 ∨
      sparseSkip received composite ≤ Spqr.maxSkip.toNat ∧
      takenFrom .postQuantum log =
        work.postQuantumSkippedLen + sparseSkip received composite - Spqr.maxSkippedStore := by
  induction retried with
  | @done work half batch full room =>
      cases half with
      | classical => exact .inl rfl
      | postQuantum =>
          have round : Retried kdf composite (tripleHeaderOf composite) dhOutRecv dhOutSend newDhsPub
            output _ _ _ _ _ := .done full room
          rw [sized rfl] at round ⊢
          exact .inr ⟨(sparse_excess old opened full).1, round.sparse_round old opened⟩
  | @again work half other batch log last full rest ih =>
      cases half with
      | classical =>
          rw [takenFrom_cons, if_neg (by decide), Nat.zero_add]
          refine ih old opened ?_
          rintro rfl
          rfl
      | postQuantum =>
          have rounds : Retried kdf composite (tripleHeaderOf composite) dhOutRecv dhOutSend newDhsPub
            output _ _ _ _ _ := .again full rest
          rw [sized rfl] at rounds ⊢
          exact .inr ⟨(sparse_excess old opened full).1, rounds.sparse_round old opened⟩

/-! ## The two bounds -/

/-- The sparse store loses nothing, or the excess, also when the first receive does
not refuse. -/
theorem sparse_taken_of_valid (kdf : Kdf K) {state : Triple.State K} {received : UInt64}
    (valid : Spqr.State.Valid state.postQuantum)
    (opened : state.postQuantumReceiveCount composite.pqEpoch = some received)
    (dhOutRecv dhOutSend : K) (newDhsPub : Arr 32) (output : Option (Spqr.Output K)) :
    let log :=
      retries kdf state composite (tripleHeaderOf composite) dhOutRecv dhOutSend newDhsPub output
    takenFrom .postQuantum log = 0 ∨
      sparseSkip received composite ≤ Spqr.maxSkip.toNat ∧
      takenFrom .postQuantum log =
        state.postQuantumSkippedLen + sparseSkip received composite - Spqr.maxSkippedStore := by
  intro log
  obtain ⟨last, -, ⟨-, logged, -⟩ | ⟨half, -, rounds⟩⟩ := receiveWithEviction_rounds kdf state
    composite (tripleHeaderOf composite) dhOutRecv dhOutSend newDhsPub output
  · left
    show takenFrom .postQuantum log = 0
    rw [show log = [] from logged, takenFrom_nil]
  · obtain ⟨ch, chain, -⟩ := Spqr.State.receiveCount_eq_some.1 opened
    obtain ⟨cs, found, -⟩ := Option.bind_eq_some_iff.1 chain
    refine rounds.sparse_taken (valid.epoch_le found) opened ?_
    rintro rfl
    rfl

theorem classical_taken_of_current (kdf : Kdf K) {state : Triple.State K}
    (current : state.classical.dhrPub = some composite.dh)
    (dhOutRecv dhOutSend : K) (newDhsPub : Arr 32) (output : Option (Spqr.Output K)) :
    let log :=
      retries kdf state composite (tripleHeaderOf composite) dhOutRecv dhOutSend newDhsPub output
    takenFrom .classical log = 0 ∨
      takenFrom .classical log =
        state.classicalSkippedLen + classicalSkip state composite - Ratchet.maxSkippedStore := by
  intro log
  obtain ⟨last, -, ⟨-, logged, -⟩ | ⟨half, -, rounds⟩⟩ := receiveWithEviction_rounds kdf state
    composite (tripleHeaderOf composite) dhOutRecv dhOutSend newDhsPub output
  · left
    show takenFrom .classical log = 0
    rw [show log = [] from logged, takenFrom_nil]
  · refine rounds.classical_taken current ?_
    rintro rfl
    rfl

/-- In a state a run reached, what an answered message evicted is the excess. -/
theorem evicts_excess {state next : Triple.State K} {key : K}
    {past : List (Ratchet.State.Event K)} {received : UInt64}
    (reached : Triple.Reached past state) (fresh : (Ratchet.State.peerKeys past).Nodup)
    (current : state.classical.dhrPub = some composite.dh)
    (opened : state.postQuantumReceiveCount composite.pqEpoch = some received)
    (accepted : receiveWithEviction kdf state composite (tripleHeaderOf composite) dhOutRecv dhOutSend
      newDhsPub none = .ok (next, key)) :
    let log := retries kdf state composite (tripleHeaderOf composite) dhOutRecv dhOutSend newDhsPub none
    takenFrom .classical log =
        state.classicalSkippedLen + classicalSkip state composite - Ratchet.maxSkippedStore ∧
      takenFrom .postQuantum log =
        state.postQuantumSkippedLen + sparseSkip received composite - Spqr.maxSkippedStore := by
  intro log
  have answers := receiveWithEviction_eq kdf state composite (tripleHeaderOf composite) dhOutRecv
    dhOutSend newDhsPub none
  rw [accepted] at answers
  have log_eq : retries kdf state composite (tripleHeaderOf composite) dhOutRecv dhOutSend newDhsPub
    none = log := rfl
  rw [log_eq] at answers
  obtain ⟨mkEc, mkPq, classical, sparse, -⟩ := Triple.State.receive_ok answers.symm
  constructor
  · -- The classical state left by the eviction answered, so it had room.
    have shorter : (evicted state (takenFrom .classical log)
        (takenFrom .postQuantum log)).classical.skipped.length =
          state.classicalSkippedLen - takenFrom .classical log := length_evictOldest_eq _ _
    have thinned := (reached.tracked fresh).of_sublist
      (Ratchet.eraseIdx_evictOldest_sublist (takenFrom .classical log) state.classical.skipped)
    have bounded : (evicted state (takenFrom .classical log)
        (takenFrom .postQuantum log)).classical.skipped.length ≤ Ratchet.maxSkippedStore := by
      have fits : state.classicalSkippedLen ≤ Ratchet.maxSkippedStore := reached.bounded
      omega
    have room : state.classicalSkippedLen - takenFrom .classical log +
        classicalSkip state composite ≤ Ratchet.maxSkippedStore := by
      rw [← shorter]
      exact Ratchet.room_of_receive thinned bounded current classical
    have taken : takenFrom .classical log = 0 ∨ takenFrom .classical log = _ :=
      classical_taken_of_current kdf current dhOutRecv dhOutSend newDhsPub none
    omega
  · have shorter : (evicted state (takenFrom .classical log)
        (takenFrom .postQuantum log)).postQuantum.skipped.length =
          state.postQuantumSkippedLen - takenFrom .postQuantum log := List.length_drop
    have evict : Spqr.State.Move kdf (fun _ => True) state.postQuantum _ _ :=
      .evict (takenFrom .postQuantum log)
    obtain ⟨ch, chain, count⟩ := Spqr.State.receiveCount_eq_some.1 opened
    have room : state.postQuantumSkippedLen - takenFrom .postQuantum log +
        sparseSkip received composite ≤ Spqr.maxSkippedStore := by
      rw [← shorter, ← count]
      exact Spqr.State.room_of_receive (evict.sound reached.sound) chain sparse
    have taken : takenFrom .postQuantum log = 0 ∨ _ ∧ takenFrom .postQuantum log = _ :=
      sparse_taken_of_valid kdf reached.sound.valid opened dhOutRecv dhOutSend newDhsPub none
    omega

/-- **Eviction is bounded.**  In every state a run reaches, no ratchet key entered
twice on the way, a message on the current chain, under an epoch with a receiving
chain and with nothing to fold, that is answered is answered from the state without
the excess of what each store holds and what the message skips, and that is all
the eviction took.  In every valid state, a header whose epoch has a receiving
chain before the fold is answered from a state with at least
`MAX_SKIPPED_STORE - MAX_SKIP` sparse keys, if the eviction took any. -/
theorem eviction_bounded [DecidableEq K] (kdf : Kdf K) :
    (∀ (first : Triple.State K) (calls : List (Triple.Call K)), Triple.Started kdf first →
      let state := ((Triple.State.call kdf).run first calls).1
      let past := ((Triple.State.classicalCall kdf).run first calls).2
      (Ratchet.State.peerKeys past).Nodup →
        ∀ (composite : Composite) (received : UInt64) (dhOutRecv dhOutSend : K)
          (newDhsPub : Arr 32) (answer : Triple.State K × K),
          state.classical.dhrPub = some composite.dh →
          state.postQuantumReceiveCount composite.pqEpoch = some received →
          receiveWithEviction kdf state composite (tripleHeaderOf composite) dhOutRecv dhOutSend
              newDhsPub none = .ok answer →
            let log := retries kdf state composite (tripleHeaderOf composite) dhOutRecv dhOutSend
              newDhsPub none
            let i := takenFrom .classical log
            let j := takenFrom .postQuantum log
            (evicted state i j).receive kdf (tripleHeaderOf composite) dhOutRecv dhOutSend newDhsPub
                none = .ok answer ∧
              i = state.classicalSkippedLen + (composite.n.toNat - state.receiveCount.toNat) -
                Ratchet.maxSkippedStore ∧
              j = state.postQuantumSkippedLen + (composite.pqN.toNat - 1 - received.toNat) -
                Spqr.maxSkippedStore) ∧
    ∀ (state : Triple.State K) (composite : Composite) (dhOutRecv dhOutSend : K)
      (newDhsPub : Arr 32) (output : Option (Spqr.Output K)), state.invariant = true →
      (state.postQuantumReceiveCount composite.pqEpoch).isSome = true →
        let log := retries kdf state composite (tripleHeaderOf composite) dhOutRecv dhOutSend
          newDhsPub output
        let i := takenFrom .classical log
        let j := takenFrom .postQuantum log
        receiveWithEviction kdf state composite (tripleHeaderOf composite) dhOutRecv dhOutSend
            newDhsPub output =
          (evicted state i j).receive kdf (tripleHeaderOf composite) dhOutRecv dhOutSend newDhsPub
            output ∧
        (0 < j → Spqr.maxSkippedStore - Spqr.maxSkip.toNat ≤
          (evicted state i j).postQuantumSkippedLen) := by
  constructor
  · intro first calls started state past fresh composite received dhOutRecv dhOutSend newDhsPub
      answer current opened accepted log i j
    have answers : receiveWithEviction kdf state composite (tripleHeaderOf composite) dhOutRecv
        dhOutSend newDhsPub none = (evicted state i j).receive kdf (tripleHeaderOf composite)
          dhOutRecv dhOutSend newDhsPub none := receiveWithEviction_eq ..
    refine ⟨answers.symm.trans accepted, ?_⟩
    exact evicts_excess (Triple.run_reached started calls) fresh current opened accepted
  · intro state composite dhOutRecv dhOutSend newDhsPub output inv opened log i j
    refine ⟨receiveWithEviction_eq .., fun some_ => ?_⟩
    obtain ⟨received, count⟩ := Option.isSome_iff_exists.1 opened
    have valid := (Triple.invariant_iff.1 inv).postQuantum
    have bounded : state.postQuantumSkippedLen ≤ Spqr.maxSkippedStore := valid.bounded
    have taken : j = 0 ∨ _ ∧ j = _ :=
      sparse_taken_of_valid kdf valid count dhOutRecv dhOutSend newDhsPub output
    have left : (evicted state i j).postQuantumSkippedLen = state.postQuantumSkippedLen - j :=
      List.length_drop
    omega

/-! ## A full store -/

theorem receiveWithEviction_full (composite : Composite)
    (full : Full half (work.receive kdf header dhOutRecv dhOutSend newDhsPub output)) :
    ∃ e, receiveWithEviction kdf work composite header dhOutRecv dhOutSend newDhsPub output =
      evictLoop kdf composite header dhOutRecv dhOutSend newDhsPub output work half
        (receiveShortfall half work composite) e := by
  obtain ⟨e, refused, kind⟩ := full
  refine ⟨e, ?_⟩
  rw [receiveWithEviction, refused]
  simp only [kind]

theorem evictLoop_done {pending : TripleError} {answer : Triple.State K × K}
    (some_ : (evictForRetry work half batch).2 ≠ 0)
    (accepted : (evictForRetry work half batch).1.receive kdf header dhOutRecv dhOutSend newDhsPub
      output = .ok answer) :
    evictLoop kdf composite header dhOutRecv dhOutSend newDhsPub output work half batch pending =
      .ok answer := by
  rw [evictLoop]
  simp only [dif_neg some_, accepted]

namespace Crowded

def peer : Arr 32 := Vector.replicate 32 5

/-- The peer's message `n`, with nothing to fold, under the sparse number `pqN`. -/
def message (n : UInt32) (pqN : UInt64) : Composite where
  dh := peer
  pn := 0
  n := n
  pqEpoch := 0
  pqN := pqN
  agEpoch := 1
  agType := .none
  agChunk := none

def started : Triple.State (Arr 32) :=
  Triple.State.initReceiver Sample.kdf [] (Vector.replicate 32 1) .tacenta

def received (c : Composite) : Triple.Call (Arr 32) :=
  .receive (tripleHeaderOf c) (Vector.replicate 32 9) (Vector.replicate 32 8)
    (Vector.replicate 32 2) none true

/-- Two messages that pass a thousand sparse keys each. -/
def calls : List (Triple.Call (Arr 32)) := [received (message 0 1001), received (message 1 2002)]

def state : Triple.State (Arr 32) := ((Triple.State.call Sample.kdf).run started calls).1

/-- The next message but one, received. -/
def answered (work : Triple.State (Arr 32)) : Except TripleError (Triple.State (Arr 32) × Arr 32) :=
  work.receive Sample.kdf (tripleHeaderOf (message 2 2004)) (Vector.replicate 32 9)
    (Vector.replicate 32 8) (Vector.replicate 32 4) none

theorem call_valid {s : Triple.State (Arr 32)} (valid : Triple.Valid s) {c : Composite}
    (canonical : Curve.isCanonicalX25519 c.dh = true) :
    Triple.Valid (s.call Sample.kdf (received c)).1 := by
  unfold received Triple.State.call
  cases ran : s.receive Sample.kdf (tripleHeaderOf c) (Vector.replicate 32 9)
      (Vector.replicate 32 8) (Vector.replicate 32 2) none with
  | error e => simpa only [ran] using valid
  | ok answer =>
      have kept := (valid.receive canonical (by decide) ran).1
      simpa only [ran, if_true] using kept

theorem state_valid : Triple.Valid state := by
  unfold state calls
  simp only [Machine.run]
  apply call_valid
  · apply call_valid
    · exact Triple.initReceiver_valid (by decide)
    · exact (by decide : Curve.isCanonicalX25519 peer = true)
  · exact (by decide : Curve.isCanonicalX25519 peer = true)

theorem state_counts : state.classical.dhrPub = some (message 2 2004).dh ∧
    state.postQuantumReceiveCount (message 2 2004).pqEpoch = some 2002 ∧ state.receiveCount = 2 ∧
    state.classicalSkippedLen = 0 ∧ state.postQuantumSkippedLen = 2000 := by decide +kernel

/-- The store a refusal says is full. -/
def fullOf : Except TripleError (Triple.State (Arr 32) × Arr 32) → Option FullStore
  | .ok _ => none
  | .error e => fullStore e

/-- The full store is the sparse one, and a round of the retry makes the room. -/
theorem state_full : Full .postQuantum (answered state) ∧ ∃ answer,
    answered (evictForRetry state .postQuantum
      (receiveShortfall .postQuantum state (message 2 2004))).1 = .ok answer := by
  have refused : fullOf (answered state) = some .postQuantum := by decide +kernel
  have answers : (answered (evictForRetry state .postQuantum
      (receiveShortfall .postQuantum state (message 2 2004))).1).toOption.isSome = true := by
    decide +kernel
  constructor
  · cases ran : answered state with
    | ok answer => simp [ran, fullOf] at refused
    | error e => exact ⟨e, rfl, by simpa [ran, fullOf] using refused⟩
  · cases ran : answered (evictForRetry state .postQuantum
        (receiveShortfall .postQuantum state (message 2 2004))).1 with
    | ok answer => exact ⟨answer, rfl⟩
    | error e => simp [ran, Except.toOption] at answers

/-- One sparse key makes room for the message, and no more go. -/
theorem eviction_bounded_crowded :
    let log := retries Sample.kdf state (message 2 2004) (tripleHeaderOf (message 2 2004))
      (Vector.replicate 32 9) (Vector.replicate 32 8) (Vector.replicate 32 4) none
    takenFrom .classical log = 0 ∧ takenFrom .postQuantum log = 1 ∧
      1000 ≤ (evicted state (takenFrom .classical log)
        (takenFrom .postQuantum log)).postQuantumSkippedLen := by
  intro log
  obtain ⟨current, opened, count, classical, sparse⟩ := state_counts
  obtain ⟨full, answer, room⟩ := state_full
  unfold answered at full room
  have found : (evictForRetry state .postQuantum
      (receiveShortfall .postQuantum state (message 2 2004))).2 ≠ 0 := by decide +kernel
  have fresh : (Ratchet.State.peerKeys
      ((Triple.State.classicalCall Sample.kdf).run started calls).2).Nodup := by decide +kernel
  obtain ⟨e, loops⟩ := receiveWithEviction_full (message 2 2004) full
  have accepted := loops.trans (evictLoop_done found room)
  obtain ⟨exact_, bound⟩ := eviction_bounded Sample.kdf
  have excess := exact_ started calls (.receiver _ _ _) fresh
  rw [← state] at excess
  obtain ⟨-, i, j⟩ := excess (message 2 2004) 2002 _ _ _ answer current opened accepted
  have least := (bound state (message 2 2004) (Vector.replicate 32 9) (Vector.replicate 32 8)
    (Vector.replicate 32 4) none (Triple.invariant_iff.2 state_valid)
    (by rw [opened]; rfl)).2
  have none_ : takenFrom .classical log = 0 := by
    rw [show takenFrom .classical log = _ from i, classical, count]
    decide
  have one : takenFrom .postQuantum log = 1 := by
    rw [show takenFrom .postQuantum log = _ from j, sparse]
    decide
  refine ⟨none_, one, ?_⟩
  exact least (one ▸ Nat.one_pos)

end Crowded

end Session

end Tacenta
