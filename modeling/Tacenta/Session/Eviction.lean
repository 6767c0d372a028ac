/-
# Tacenta.Session.Eviction -- a receive that meets a full store

`receive_with_eviction` evicts from a copy and tries again until the store that
refused has room.  `retries` lists what it evicted on the way, and
`eviction_retry_total` says what came of it: the plain receive of the state
without those keys, and no full store in the answer.

No empty store is full: one receive stores keys in at most two skips, neither of
more than `MAX_SKIP`, and the bound is twice that.  So an eviction a refusal
leads to always finds a key, and the batch is never zero.
-/
import Tacenta.Ratchet.Skips
import Tacenta.Session.Calls
import Tacenta.Triple.Oldest

set_option autoImplicit false

namespace Tacenta

variable {K : Type} {kdf : Kdf K}

/-! ## What a full store means -/

namespace Ratchet

/-- A skip leaves as many keys as it found, or at most the keys it passed more. -/
theorem skipMessageKeys_length {s s' : State K} {upto : UInt32}
    (skipped : skipMessageKeys kdf s upto = (s', .ok ())) :
    s'.skipped.length ≤ s.skipped.length + maxSkip.toNat := by
  obtain ⟨rfl, -⟩ | ⟨ck, dhr, -, -, -, near, -, rfl⟩ := skipMessageKeys_ok skipped
  · exact Nat.le_add_right _ _
  · have purged := length_purgeChainRange s.skipped dhr s.nr upto
    have less := surviving_le s.skipped dhr s.nr upto
    simp only [skippedTo, List.length_append, List.length_map, numberedKeys, List.length_range]
    omega

/-- An empty store is never full. -/
theorem stored_of_receive_full {s : State K} {header : Header} {dhOutRecv dhOutSend : K}
    {newDhsPub : Arr 32}
    (full : (receive kdf s header dhOutRecv dhOutSend newDhsPub).2 = .error .skippedStoreFull) :
    0 < s.skipped.length := by
  have bound : maxSkip.toNat + maxSkip.toNat = maxSkippedStore := rfl
  obtain ⟨-, ⟨first, -⟩ | ⟨mid, entered, second⟩⟩ := receive_full full
  · obtain ⟨dhr, -, near, over_⟩ := skipMessageKeys_full first
    have less := surviving_le s.skipped dhr s.nr header.pn
    omega
  · obtain ⟨dhr, -, near, over_⟩ := skipMessageKeys_full second
    have less := surviving_le mid.skipped dhr mid.nr header.n
    have before : mid.skipped.length ≤ s.skipped.length + maxSkip.toNat := by
      obtain ⟨-, rfl⟩ | ⟨-, rest, skipped, rfl⟩ := enterChain_ok entered
      · exact Nat.le_add_right _ _
      · have kept := skipMessageKeys_length skipped
        exact kept
    omega

end Ratchet

namespace Spqr.State

/-- A fold stores nothing. -/
theorem maybeAdvance_sublist {s mid : State K} {output : Option (Output K)}
    (advanced : s.maybeAdvance kdf output = (mid, .ok ())) :
    mid.skipped.Sublist s.skipped := by
  obtain ⟨-, rfl⟩ | ⟨o, -, advanced⟩ := maybeAdvance_ok advanced
  · exact List.Sublist.refl _
  · obtain ⟨-, -, rfl⟩ := advance_ok advanced
    exact List.filter_sublist

/-- A fold that leaves an epoch its chains leaves it its keys. -/
theorem maybeAdvance_trySkipped {s mid : State K} {output : Option (Output K)} {e n : UInt64}
    {cs : Chains K} (advanced : s.maybeAdvance kdf output = (mid, .ok ()))
    (found : mid.findChains e = some cs) (absent : mid.trySkipped e n = none) :
    s.trySkipped e n = none := by
  obtain ⟨-, rfl⟩ | ⟨o, -, advanced⟩ := maybeAdvance_ok advanced
  · exact absent
  · obtain ⟨below, next, rfl⟩ := advance_ok advanced
    have inWindow : kept o.keyEpoch e = true := by
      rw [findChains_folded below next] at found
      split at found
      · rename_i newest
        rw [newest]
        exact kept_self (by omega)
      · split at found
        · assumption
        · simp at found
    rw [trySkipped, Option.map_eq_none_iff, takeFirst_eq_none] at absent ⊢
    intro k member
    by_cases same : k.epoch = e
    · apply absent k
      refine List.mem_filter.2 ⟨member, ?_⟩
      rw [same]
      exact inWindow
    · simp [named, same]

/-- A receive that finds the store full does not find its key in it, and the
store is not empty. -/
theorem stored_of_receive_full {s : State K} {e n : UInt64} {output : Option (Output K)}
    (full : (s.receive kdf e output n).2 = .error .skippedStoreFull) :
    s.trySkipped e n = none ∧ 0 < s.skipped.length := by
  have bound : maxSkip.toNat + maxSkip.toNat = maxSkippedStore := rfl
  obtain ⟨mid, advanced, absent, refused⟩ := receive_full full
  obtain ⟨cs, ch, found, -, near, over_⟩ := skipMessageKeys_full refused
  refine ⟨maybeAdvance_trySkipped advanced found absent, ?_⟩
  have less := surviving_le mid.skipped e ch.n (n.saturatingSub 1)
  have folded := (maybeAdvance_sublist advanced).length_le
  omega

end Spqr.State

namespace Session

open Triple (TripleError)
open Wire (Composite)

variable {composite : Composite} {header : Triple.Header} {dhOutRecv dhOutSend : K}
  {newDhsPub : Arr 32} {output : Option (Spqr.Output K)} {state work : Triple.State K}
  {half : FullStore} {batch : Nat} {pending : TripleError}

/-- The state's own store of the message's key, in one half. -/
def holdsKey (state : Triple.State K) (header : Triple.Header) : FullStore → Bool
  | .classical => (Ratchet.trySkipped state.classical.skipped header.dr).isSome
  | .postQuantum => (state.postQuantum.trySkipped header.epoch header.pqN).isSome

/-- How many keys one half stores. -/
def storedIn (state : Triple.State K) : FullStore → Nat
  | .classical => state.classicalSkippedLen
  | .postQuantum => state.postQuantumSkippedLen

/-- A receive answers with a full store. -/
def Full (half : FullStore) (result : Except TripleError (Triple.State K × K)) : Prop :=
  ∃ e, result = .error e ∧ fullStore e = some half

theorem full_classical {w : Triple.State K}
    (full : Full .classical (w.receive kdf header dhOutRecv dhOutSend newDhsPub output)) :
    (Ratchet.receive kdf w.classical header.dr dhOutRecv dhOutSend newDhsPub).2 =
      .error .skippedStoreFull := by
  obtain ⟨e, refused, kind⟩ := full
  unfold Triple.State.receive at refused
  split at refused
  · rename_i left e' first
    rw [← Except.error.inj refused] at kind
    cases e' with
    | skippedStoreFull => rw [first]
    | _ => simp [fullStore] at kind
  · split at refused
    · rename_i left' e' second
      rw [← Except.error.inj refused] at kind
      cases e' with
      | _ => simp [fullStore] at kind
    · simp at refused

theorem full_postQuantum {w : Triple.State K}
    (full : Full .postQuantum (w.receive kdf header dhOutRecv dhOutSend newDhsPub output)) :
    (∃ left mk, Ratchet.receive kdf w.classical header.dr dhOutRecv dhOutSend newDhsPub =
      (left, .ok mk)) ∧
    (w.postQuantum.receive kdf header.epoch output header.pqN).2 = .error .skippedStoreFull := by
  obtain ⟨e, refused, kind⟩ := full
  unfold Triple.State.receive at refused
  split at refused
  · rename_i left e' first
    rw [← Except.error.inj refused] at kind
    cases e' with
    | _ => simp [fullStore] at kind
  · rename_i left mk first
    refine ⟨⟨left, mk, first⟩, ?_⟩
    split at refused
    · rename_i left' e' second
      rw [← Except.error.inj refused] at kind
      cases e' with
      | skippedStoreFull => rw [second]
      | _ => simp [fullStore] at kind
    · simp at refused

/-- The half that reports itself full stores something, and not this message's key. -/
theorem stored_of_full {w : Triple.State K}
    (full : Full half (w.receive kdf header dhOutRecv dhOutSend newDhsPub output)) :
    holdsKey w header half = false ∧ 0 < storedIn w half := by
  cases half with
  | classical =>
      have refused := full_classical full
      refine ⟨?_, Ratchet.stored_of_receive_full refused⟩
      rw [holdsKey, (Ratchet.receive_full refused).1]
      rfl
  | postQuantum =>
      obtain ⟨absent, stored⟩ := Spqr.State.stored_of_receive_full (full_postQuantum full).2
      refine ⟨?_, stored⟩
      rw [holdsKey, absent]
      rfl

/-! ## Evictions -/

/-- The state without the `i` oldest classical and the `j` oldest sparse keys. -/
def evicted (state : Triple.State K) (i j : Nat) : Triple.State K where
  classical := (state.classical.evictOldest i).1
  postQuantum := (state.postQuantum.evictOldest j).1

/-- How many keys a list of evictions took from one half. -/
def takenFrom (half : FullStore) (log : List (FullStore × Nat)) : Nat :=
  ((log.filter fun round => round.1 = half).map Prod.snd).sum

theorem takenFrom_nil (half : FullStore) : takenFrom half [] = 0 := rfl

theorem takenFrom_cons (half other : FullStore) (count : Nat) (log : List (FullStore × Nat)) :
    takenFrom half ((other, count) :: log) =
      (if other = half then count else 0) + takenFrom half log := by
  unfold takenFrom
  by_cases same : other = half
  · simp [same]
  · simp [same]

theorem evicted_zero (state : Triple.State K) : evicted state 0 0 = state := rfl

theorem evicted_evicted (state : Triple.State K) (i j i' j' : Nat) :
    evicted (evicted state i j) i' j' = evicted state (i + i') (j + j') := by
  simp only [evicted, Triple.classical_evictOldest_add, Triple.sparse_evictOldest_add]

/-- What an eviction counts is what it takes. -/
theorem evictOldest_count (count : Nat) (l : List (Ratchet.SkippedKey K)) :
    (Ratchet.evictOldest count l).2 = min count l.length := by
  obtain ⟨gone, least, evicts⟩ := Ratchet.evictOldest_least count l
  rw [evicts, least.card]

theorem length_evictOldest_eq (count : Nat) (l : List (Ratchet.SkippedKey K)) :
    (Ratchet.evictOldest count l).1.length = l.length - count := by
  have total := length_evictOldest count l
  rw [evictOldest_count] at total
  omega

/-- Asking for more than there is takes what there is. -/
theorem evictOldest_min (count : Nat) (l : List (Ratchet.SkippedKey K)) :
    Ratchet.evictOldest (min count l.length) l = Ratchet.evictOldest count l := by
  rcases Nat.le_total count l.length with few | many
  · rw [Nat.min_eq_left few]
  · -- The rest of the count finds an empty store.
    rw [Nat.min_eq_right many]
    obtain ⟨more, rfl⟩ := Nat.exists_eq_add_of_le many
    have none_ : (Ratchet.evictOldest l.length l).1 = [] := by
      rw [← List.length_eq_zero_iff, length_evictOldest_eq]
      omega
    rw [Ratchet.evictOldest_add, none_]
    cases more with
    | zero => exact Prod.ext none_ rfl
    | succ more => exact Prod.ext none_ rfl

/-- One round of the retry, as an eviction of what it reports. -/
theorem evictForRetry_eq (work : Triple.State K) (half : FullStore) (batch : Nat) :
    (evictForRetry work half batch).2 = min batch (storedIn work half) ∧
    (evictForRetry work half batch).1 =
      evicted work (if half = .classical then min batch (storedIn work half) else 0)
        (if half = .postQuantum then min batch (storedIn work half) else 0) := by
  cases half with
  | classical =>
      refine ⟨evictOldest_count batch work.classical.skipped, ?_⟩
      have same := evictOldest_min batch work.classical.skipped
      show ({ work with classical := (work.classical.evictOldest batch).1 } : Triple.State K) =
        evicted work (min batch work.classical.skipped.length) 0
      simp only [evicted, Ratchet.State.evictOldest, same]
      rfl
  | postQuantum =>
      refine ⟨rfl, ?_⟩
      show ({ work with postQuantum := (work.postQuantum.evictOldest batch).1 } : Triple.State K) =
        evicted work 0 (min batch work.postQuantum.skipped.length)
      have same : work.postQuantum.skipped.drop (min batch work.postQuantum.skipped.length) =
          work.postQuantum.skipped.drop batch := by
        rcases Nat.le_total batch work.postQuantum.skipped.length with few | many
        · rw [Nat.min_eq_left few]
        · rw [Nat.min_eq_right many, List.drop_length, List.drop_eq_nil_of_le many]
      simp only [evicted, Spqr.State.evictOldest, same]
      rfl

/-- An eviction in one half leaves the other half's keys. -/
theorem holdsKey_evictForRetry {other : FullStore} (apart : other ≠ half) :
    holdsKey (evictForRetry work half batch).1 header other = holdsKey work header other := by
  cases half with
  | classical =>
      cases other with
      | classical => exact absurd rfl apart
      | postQuantum => rfl
  | postQuantum =>
      cases other with
      | classical => rfl
      | postQuantum => exact absurd rfl apart

theorem storedIn_evictForRetry (work : Triple.State K) (half other : FullStore) (batch : Nat) :
    storedIn (evictForRetry work half batch).1 other =
      storedIn work other - if half = other then (evictForRetry work half batch).2 else 0 := by
  cases half with
  | classical =>
      cases other with
      | classical =>
          have total := length_evictOldest batch work.classical.skipped
          rw [if_pos rfl]
          exact Nat.eq_sub_of_add_eq total
      | postQuantum => rfl
  | postQuantum =>
      cases other with
      | classical => rfl
      | postQuantum =>
          have length : (work.postQuantum.skipped.drop batch).length = _ := List.length_drop
          show (work.postQuantum.skipped.drop batch).length =
            work.postQuantum.skipped.length - min batch work.postQuantum.skipped.length
          omega

theorem receiveShortfall_pos (half : FullStore) (state : Triple.State K) (composite : Composite) :
    0 < receiveShortfall half state composite := by
  cases half with
  | classical => exact Nat.lt_of_lt_of_le Nat.one_pos (Nat.le_max_left 1 _)
  | postQuantum =>
      rw [receiveShortfall]
      cases state.postQuantumReceiveCount composite.pqEpoch with
      | none => exact Nat.one_pos
      | some received => exact Nat.lt_of_lt_of_le Nat.one_pos (Nat.le_max_left 1 _)

/-! ## The retries -/

/-- The evictions of the retry loop, in order: from which half, and how many keys. -/
def loopRetries (kdf : Kdf K) (composite : Composite) (header : Triple.Header)
    (dhOutRecv dhOutSend : K) (newDhsPub : Arr 32) (output : Option (Spqr.Output K))
    (work : Triple.State K) (half : FullStore) (batch : Nat) : List (FullStore × Nat) :=
  let evicted := evictForRetry work half batch
  if _none : evicted.2 = 0 then []
  else
    (half, evicted.2) ::
      match evicted.1.receive kdf header dhOutRecv dhOutSend newDhsPub output with
      | .ok _ => []
      | .error error =>
          match fullStore error with
          | none => []
          | some next =>
              let batch := if next ≠ half then receiveShortfall next evicted.1 composite
                else batch + batch
              loopRetries kdf composite header dhOutRecv dhOutSend newDhsPub output evicted.1 next
                batch
termination_by storedKeys work
decreasing_by exact storedKeys_evictForRetry ‹_›

/-- The evictions of `receive_with_eviction`. -/
def retries (kdf : Kdf K) (state : Triple.State K) (composite : Composite)
    (header : Triple.Header) (dhOutRecv dhOutSend : K) (newDhsPub : Arr 32)
    (output : Option (Spqr.Output K)) : List (FullStore × Nat) :=
  match state.receive kdf header dhOutRecv dhOutSend newDhsPub output with
  | .ok _ => []
  | .error first =>
      match fullStore first with
      | none => []
      | some half =>
          loopRetries kdf composite header dhOutRecv dhOutSend newDhsPub output state half
            (receiveShortfall half state composite)

/-- The batch of the round after a refusal by `other`. -/
def nextBatch (composite : Composite) (half other : FullStore) (next : Triple.State K)
    (batch : Nat) : Nat :=
  if other ≠ half then receiveShortfall other next composite else batch + batch

theorem nextBatch_pos (composite : Composite) (half other : FullStore) (next : Triple.State K)
    (positive : 0 < batch) : 0 < nextBatch composite half other next batch := by
  unfold nextBatch
  split
  · exact receiveShortfall_pos other next composite
  · omega

section Retrying

variable (kdf composite header dhOutRecv dhOutSend newDhsPub output)

/-- The rounds of the retry loop from `work`, where `half` is full, to the first
state where neither half is. -/
inductive Retried : Triple.State K → FullStore → Nat → List (FullStore × Nat) → Triple.State K → Prop
  | done {work : Triple.State K} {half : FullStore} {batch : Nat}
      (full : Full half (work.receive kdf header dhOutRecv dhOutSend newDhsPub output))
      (room : ∀ other, ¬ Full other ((evictForRetry work half batch).1.receive kdf header dhOutRecv
        dhOutSend newDhsPub output)) :
      Retried work half batch [(half, (evictForRetry work half batch).2)]
        (evictForRetry work half batch).1
  | again {work : Triple.State K} {half other : FullStore} {batch : Nat}
      {log : List (FullStore × Nat)} {last : Triple.State K}
      (full : Full half (work.receive kdf header dhOutRecv dhOutSend newDhsPub output))
      (rest : Retried (evictForRetry work half batch).1 other
        (nextBatch composite half other (evictForRetry work half batch).1 batch) log last) :
      Retried work half batch ((half, (evictForRetry work half batch).2) :: log) last

variable {kdf composite header dhOutRecv dhOutSend newDhsPub output}

/-- **The retry loop ends with room**, and answers what the receive there does. -/
theorem loop_retried (work : Triple.State K) (half : FullStore) (batch : Nat) (pending : TripleError)
    (positive : 0 < batch)
    (full : Full half (work.receive kdf header dhOutRecv dhOutSend newDhsPub output)) :
    ∃ last,
      Retried kdf composite header dhOutRecv dhOutSend newDhsPub output work half batch
        (loopRetries kdf composite header dhOutRecv dhOutSend newDhsPub output work half batch) last ∧
      evictLoop kdf composite header dhOutRecv dhOutSend newDhsPub output work half batch pending =
        last.receive kdf header dhOutRecv dhOutSend newDhsPub output := by
  have stored := (stored_of_full full).2
  have counts := (evictForRetry_eq work half batch).1
  have found : (evictForRetry work half batch).2 ≠ 0 := by omega
  rw [evictLoop, loopRetries]
  simp only [dif_neg found]
  cases answer : (evictForRetry work half batch).1.receive kdf header dhOutRecv dhOutSend newDhsPub
      output with
  | ok value =>
      refine ⟨_, .done full ?_, answer.symm⟩
      rintro other ⟨e, refused, -⟩
      rw [answer] at refused
      simp at refused
  | error e =>
      cases kind : fullStore e with
      | none =>
          simp only [kind]
          refine ⟨_, .done full ?_, answer.symm⟩
          rintro other ⟨e', refused, kind'⟩
          rw [answer, Except.error.injEq] at refused
          rw [← refused, kind] at kind'
          simp at kind'
      | some other =>
          simp only [kind]
          obtain ⟨last, rest, same⟩ := loop_retried (evictForRetry work half batch).1 other
            (nextBatch composite half other (evictForRetry work half batch).1 batch) e
            (nextBatch_pos composite half other _ positive) ⟨e, answer, kind⟩
          exact ⟨last, .again full rest, same⟩
termination_by storedKeys work
decreasing_by exact storedKeys_evictForRetry found

variable {log : List (FullStore × Nat)} {last : Triple.State K}

theorem Retried.room
    (retried : Retried kdf composite header dhOutRecv dhOutSend newDhsPub output work half batch log
      last) (other : FullStore) :
    ¬ Full other (last.receive kdf header dhOutRecv dhOutSend newDhsPub output) := by
  induction retried with
  | done _ room => exact room other
  | again _ _ ih => exact ih

/-- No round takes from a half that holds the message's key. -/
theorem Retried.absent
    (retried : Retried kdf composite header dhOutRecv dhOutSend newDhsPub output work half batch log
      last) : ∀ round ∈ log, holdsKey work header round.1 = false := by
  induction retried with
  | done full =>
      intro round member
      rw [List.mem_singleton.1 member]
      exact (stored_of_full full).1
  | @again work half other batch log last full rest ih =>
      have here := (stored_of_full full).1
      intro round member
      rcases List.mem_cons.1 member with first | later
      · rw [first]
        exact here
      · by_cases same : round.1 = half
        · rw [same]
          exact here
        · rw [← holdsKey_evictForRetry same]
          exact ih round later

/-- The rounds together are one eviction in each half. -/
theorem Retried.last_eq
    (retried : Retried kdf composite header dhOutRecv dhOutSend newDhsPub output work half batch log
      last) :
    last = evicted work (takenFrom .classical log) (takenFrom .postQuantum log) := by
  induction retried with
  | @done work half batch full room =>
      obtain ⟨counts, next⟩ := evictForRetry_eq work half batch
      rw [next, counts, takenFrom_cons, takenFrom_cons]
      rfl
  | @again work half other batch log last full rest ih =>
      obtain ⟨counts, next⟩ := evictForRetry_eq work half batch
      rw [ih, next, evicted_evicted, takenFrom_cons, takenFrom_cons, counts]

/-- They take no more than there is. -/
theorem Retried.taken_le
    (retried : Retried kdf composite header dhOutRecv dhOutSend newDhsPub output work half batch log
      last) (other : FullStore) : takenFrom other log ≤ storedIn work other := by
  induction retried with
  | @done work half batch full room =>
      rw [takenFrom_cons, (evictForRetry_eq work half batch).1]
      show (if half = other then _ else 0) + 0 ≤ _
      split
      · rename_i same
        subst same
        omega
      · omega
  | @again work half next batch log last full rest ih =>
      have left := storedIn_evictForRetry work half other batch
      rw [takenFrom_cons]
      split
      · rename_i same
        subst same
        rw [if_pos rfl] at left
        have count := (evictForRetry_eq work half batch).1
        show (evictForRetry work half batch).2 + _ ≤ _
        omega
      · rename_i apart
        rw [if_neg apart] at left
        omega

end Retrying

/-- **A receive with eviction** answers at once, or goes the rounds of the loop
from a batch of what the header lacks. -/
theorem receiveWithEviction_rounds (kdf : Kdf K) (state : Triple.State K) (composite : Composite)
    (header : Triple.Header) (dhOutRecv dhOutSend : K) (newDhsPub : Arr 32)
    (output : Option (Spqr.Output K)) :
    ∃ last,
      receiveWithEviction kdf state composite header dhOutRecv dhOutSend newDhsPub output =
        last.receive kdf header dhOutRecv dhOutSend newDhsPub output ∧
      (((∀ half, ¬ Full half (state.receive kdf header dhOutRecv dhOutSend newDhsPub output)) ∧
          retries kdf state composite header dhOutRecv dhOutSend newDhsPub output = [] ∧
          last = state) ∨
        ∃ half, Full half (state.receive kdf header dhOutRecv dhOutSend newDhsPub output) ∧
          Retried kdf composite header dhOutRecv dhOutSend newDhsPub output state half
            (receiveShortfall half state composite)
            (retries kdf state composite header dhOutRecv dhOutSend newDhsPub output) last) := by
  unfold receiveWithEviction retries
  cases plain : state.receive kdf header dhOutRecv dhOutSend newDhsPub output with
  | ok value =>
      refine ⟨state, plain.symm, .inl ⟨?_, rfl, rfl⟩⟩
      rintro half ⟨e, refused, -⟩
      simp at refused
  | error e =>
      cases kind : fullStore e with
      | none =>
          refine ⟨state, ?_, .inl ⟨?_, ?_, rfl⟩⟩
          · simp only [kind, plain]
          · rintro half ⟨e', refused, kind'⟩
            rw [← Except.error.inj refused, kind] at kind'
            simp at kind'
          · simp only [kind]
      | some half =>
          simp only [kind]
          have full : Full half (state.receive kdf header dhOutRecv dhOutSend newDhsPub output) :=
            ⟨e, plain, kind⟩
          obtain ⟨last, rounds, same⟩ := loop_retried state half
            (receiveShortfall half state composite) e (receiveShortfall_pos half state composite) full
          exact ⟨last, same, .inr ⟨half, ⟨e, rfl, kind⟩, rounds⟩⟩

theorem not_full_iff {result : Except TripleError (Triple.State K × K)} :
    (∀ half, ¬ Full half result) ↔ ∀ e, result = .error e → fullStore e = none := by
  constructor
  · intro none_ e refused
    cases kind : fullStore e with
    | none => rfl
    | some half => exact absurd ⟨e, refused, kind⟩ (none_ half)
  · rintro none_ half ⟨e, refused, kind⟩
    rw [none_ e refused] at kind
    simp at kind

/-- The answer is the receive of the state without what was evicted. -/
theorem receiveWithEviction_eq (kdf : Kdf K) (state : Triple.State K) (composite : Composite)
    (header : Triple.Header) (dhOutRecv dhOutSend : K) (newDhsPub : Arr 32)
    (output : Option (Spqr.Output K)) :
    receiveWithEviction kdf state composite header dhOutRecv dhOutSend newDhsPub output =
      (evicted state
        (takenFrom .classical
          (retries kdf state composite header dhOutRecv dhOutSend newDhsPub output))
        (takenFrom .postQuantum
          (retries kdf state composite header dhOutRecv dhOutSend newDhsPub output))).receive
        kdf header dhOutRecv dhOutSend newDhsPub output := by
  obtain ⟨last, same, ⟨-, logged, rfl⟩ | ⟨half, -, rounds⟩⟩ := receiveWithEviction_rounds kdf state
    composite header dhOutRecv dhOutSend newDhsPub output
  · rw [same, logged, takenFrom_nil, takenFrom_nil, evicted_zero]
  · rw [same, ← rounds.last_eq]

/-- **Eviction retry is total and transparent.**  A receive with eviction never
answers with a full store.  Where the plain receive does not, it evicts nothing
and answers the same; otherwise it answers as the receive of the state without
the `i` oldest classical and the `j` oldest sparse keys, where `i` and `j` are
what it evicted, none of it from a half that held this message's key. -/
theorem eviction_retry_total (kdf : Kdf K) (state : Triple.State K) (composite : Composite)
    (header : Triple.Header) (dhOutRecv dhOutSend : K) (newDhsPub : Arr 32)
    (output : Option (Spqr.Output K)) :
    let plain := state.receive kdf header dhOutRecv dhOutSend newDhsPub output
    let answer :=
      receiveWithEviction kdf state composite header dhOutRecv dhOutSend newDhsPub output
    let log := retries kdf state composite header dhOutRecv dhOutSend newDhsPub output
    let i := takenFrom .classical log
    let j := takenFrom .postQuantum log
    (∀ e, answer = .error e → fullStore e = none) ∧
    ((∀ e, plain = .error e → fullStore e = none) → log = [] ∧ answer = plain) ∧
    answer = (evicted state i j).receive kdf header dhOutRecv dhOutSend newDhsPub output ∧
    (i ≤ state.classicalSkippedLen ∧ j ≤ state.postQuantumSkippedLen) ∧
    ∀ round ∈ log, holdsKey state header round.1 = false := by
  intro plain answer log i j
  have total : answer = (evicted state i j).receive kdf header dhOutRecv dhOutSend newDhsPub output :=
    receiveWithEviction_eq kdf state composite header dhOutRecv dhOutSend newDhsPub output
  obtain ⟨last, same, ⟨room, logged, rfl⟩ | ⟨half, full, rounds⟩⟩ := receiveWithEviction_rounds kdf
    state composite header dhOutRecv dhOutSend newDhsPub output
  · have none_ : log = [] := logged
    have answers : answer = plain := same
    refine ⟨?_, fun _ => ⟨none_, answers⟩, total, ?_, ?_⟩
    · rw [answers]
      exact not_full_iff.1 room
    · constructor
      · rw [show i = takenFrom .classical log from rfl, none_]
        exact Nat.zero_le _
      · rw [show j = takenFrom .postQuantum log from rfl, none_]
        exact Nat.zero_le _
    · intro round member
      rw [none_] at member
      simp at member
  · have answers : answer = last.receive kdf header dhOutRecv dhOutSend newDhsPub output := same
    refine ⟨?_, ?_, total, ⟨rounds.taken_le .classical, rounds.taken_le .postQuantum⟩, rounds.absent⟩
    · rw [answers]
      exact not_full_iff.1 rounds.room
    · intro none_
      exact absurd full (not_full_iff.2 none_ half)

end Session

end Tacenta
