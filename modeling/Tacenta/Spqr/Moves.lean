/-
# Tacenta.Spqr.Moves -- a sparse ratchet's calls as moves

Every exit of `send`, `receive` and `evictOldest` leaves the state a few of six
`Move`s on: a fold, a key taken from a sending chain, keys skipped into the
store, a stored key served, a key taken from a receiving chain, an eviction.  A
call that is refused may have made the first of them (`call_moves`).  Which
outputs a fold may take is a parameter: those the calls offer.

What every move keeps, every run keeps (`run_keeps`); the facts about runs are
each one case analysis over the moves.
-/
import Tacenta.Runs
import Tacenta.Spqr.Invariant

set_option autoImplicit false

namespace Tacenta.Spqr

variable {K : Type} {kdf : Kdf K}

/-- One call on a sparse ratchet. -/
inductive Call (K : Type) where
  | send (sendingEpoch : UInt64) (output : Option (Output K))
  | receive (receivingEpoch : UInt64) (output : Option (Output K)) (n : UInt64)
  | evictOldest (count : Nat)

/-- The output a call offers to fold. -/
def Call.output : Call K → Option (Output K)
  | .send _ output => output
  | .receive _ output _ => output
  | .evictOldest _ => none

/-- What a call answered, or deleted. -/
inductive Event (K : Type) where
  | sent (epoch n : UInt64) (key : K)
  | received (epoch n : UInt64) (key : K)
  | evicted (epoch n : UInt64)

/-- The pair a successful send drew. -/
def Event.sentPair : Event K → Option (UInt64 × UInt64)
  | .sent e n _ => some (e, n)
  | _ => none

/-- The pair a successful receive answered. -/
def Event.receivedPair : Event K → Option (UInt64 × UInt64)
  | .received e n _ => some (e, n)
  | _ => none

namespace State

variable {offered : Output K → Prop} {s s' : State K}

/-- The state a call leaves, on every exit, and the events of it. -/
def call (kdf : Kdf K) : Machine (State K) (Call K) (Event K)
  | s, .send e output =>
      match s.send kdf e output with
      | (s, .ok (n, key)) => (s, [.sent e n key])
      | (s, .error _) => (s, [])
  | s, .receive e output n =>
      match s.receive kdf e output n with
      | (s, .ok key) => (s, [.received e n key])
      | (s, .error _) => (s, [])
  | s, .evictOldest count =>
      ((s.evictOldest count).1, (s.skipped.take count).map fun k => .evicted k.epoch k.n)

/-- One indivisible change of a sparse ratchet. -/
inductive Move (kdf : Kdf K) (offered : Output K → Prop) (s : State K) :
    List (Event K) → State K → Prop where
  | fold {out : Output K} (offer : offered out) (below : s.epoch.toNat + 1 < 2 ^ 64 - 1)
      (next : out.keyEpoch.toNat = s.epoch.toNat + 1) : Move kdf offered s [] (s.folded kdf out)
  | send {e n : UInt64} {cs : Chains K} {ch : Chain K} (found : s.findChains e = some cs)
      (chain : cs.send = some ch) (climbs : ch.n.checkedAdd 1 = some n) :
      Move kdf offered s [.sent e n (kdfCk kdf ch.ck n).2]
        (s.setChains e { send := some ⟨(kdfCk kdf ch.ck n).1, n⟩, receive := cs.receive })
  | skip {e upto : UInt64} {cs : Chains K} {ch : Chain K} (found : s.findChains e = some cs)
      (chain : cs.receive = some ch) (ahead : ch.n < upto)
      (room : (s.skipped.filter fun k =>
        !(decide (k.epoch = e) && decide (ch.n < k.n) && decide (k.n ≤ upto))).length +
          (upto.toNat - ch.n.toNat) ≤ maxSkippedStore) :
      Move kdf offered s [] (s.skippedTo kdf e cs ch upto)
  | serve {e n : UInt64} {k : Skipped K} {left : List (Skipped K)}
      (taken : takeFirst (named e n) s.skipped = some (k, left)) :
      Move kdf offered s [.received e n k.key] { s with skipped := left }
  | receive {e n : UInt64} {cs : Chains K} {ch : Chain K} (found : s.findChains e = some cs)
      (chain : cs.receive = some ch) (climbs : ch.n.checkedAdd 1 = some n) :
      Move kdf offered s [.received e n (kdfCk kdf ch.ck n).2]
        (s.setChains e { send := cs.send, receive := some ⟨(kdfCk kdf ch.ck n).1, n⟩ })
  | evict (count : Nat) :
      Move kdf offered s ((s.skipped.take count).map fun k => .evicted k.epoch k.n)
        { s with skipped := s.skipped.drop count }

/-- Moves one after the other. -/
inductive Moves (kdf : Kdf K) (offered : Output K → Prop) :
    State K → List (Event K) → State K → Prop where
  | refl (s : State K) : Moves kdf offered s [] s
  | step {s mid s' : State K} {now later : List (Event K)} (first : Move kdf offered s now mid)
      (rest : Moves kdf offered mid later s') : Moves kdf offered s (now ++ later) s'

theorem Move.moves {now : List (Event K)} (move : Move kdf offered s now s') : Moves kdf offered s now s' := by
  have one := Moves.step move (.refl s')
  rwa [List.append_nil] at one

theorem Moves.trans {mid : State K} {now later : List (Event K)} (first : Moves kdf offered s now mid)
    (rest : Moves kdf offered mid later s') : Moves kdf offered s (now ++ later) s' := by
  induction first with
  | refl => exact rest
  | step move _ ih =>
      rw [List.append_assoc]
      exact .step move (ih rest)

/-- What every move keeps, moves one after the other keep. -/
theorem Moves.keeps {inv : List (Event K) → State K → Prop} {now : List (Event K)}
    (moves : Moves kdf offered s now s')
    (keeps : ∀ past s now s', Move kdf offered s now s' → inv past s → inv (past ++ now) s')
    {past : List (Event K)} (start : inv past s) : inv (past ++ now) s' := by
  induction moves generalizing past with
  | refl =>
      rw [List.append_nil]
      exact start
  | step move _ ih =>
      rw [← List.append_assoc]
      exact ih (keeps _ _ _ _ move start)

/-! ## What a refusal left -/

theorem advance_error {out : Output K} {e : SpqrError}
    (refused : s.advance kdf out = (s', .error e)) : s' = s := by
  rw [advance_eq] at refused
  split at refused
  · exact (Prod.mk.inj refused).1.symm
  · split at refused
    · exact (Prod.mk.inj refused).1.symm
    · simp at refused

theorem sendOn_error {e : UInt64} {err : SpqrError}
    (refused : s.sendOn kdf e = (s', .error err)) : s' = s := by
  unfold sendOn at refused
  split at refused
  · exact (Prod.mk.inj refused).1.symm
  · split at refused
    · exact (Prod.mk.inj refused).1.symm
    · split at refused
      · exact (Prod.mk.inj refused).1.symm
      · simp at refused

theorem skipMessageKeys_error {e upto : UInt64} {err : SpqrError}
    (refused : s.skipMessageKeys kdf e upto = (s', .error err)) : s' = s := by
  unfold skipMessageKeys at refused
  split at refused
  · exact (Prod.mk.inj refused).1.symm
  · split at refused
    · exact (Prod.mk.inj refused).1.symm
    · split at refused
      · simp at refused
      · simp only at refused
        split at refused
        · exact (Prod.mk.inj refused).1.symm
        · split at refused
          · exact (Prod.mk.inj refused).1.symm
          · simp at refused

theorem receiveOn_error {e n : UInt64} {err : SpqrError}
    (refused : s.receiveOn kdf e n = (s', .error err)) : s' = s := by
  unfold receiveOn at refused
  split at refused
  · exact (Prod.mk.inj refused).1.symm
  · split at refused
    · exact (Prod.mk.inj refused).1.symm
    · split at refused
      · exact (Prod.mk.inj refused).1.symm
      · split at refused
        · exact (Prod.mk.inj refused).1.symm
        · simp at refused

/-! ## Every exit of every call -/

theorem maybeAdvance_moves (kdf : Kdf K) (s : State K) {out : Option (Output K)}
    (offers : ∀ o, out = some o → offered o) :
    Moves kdf offered s [] (s.maybeAdvance kdf out).1 := by
  cases out with
  | none => exact .refl s
  | some o =>
      rw [maybeAdvance]
      cases ran : s.advance kdf o with
      | mk left result =>
          cases result with
          | error e =>
              rw [advance_error ran]
              exact .refl s
          | ok =>
              obtain ⟨below, next, rfl⟩ := advance_ok ran
              exact (Move.fold (offers o rfl) below next).moves

theorem skipMessageKeys_moves (kdf : Kdf K) (s : State K) (e upto : UInt64) :
    Moves kdf offered s [] (s.skipMessageKeys kdf e upto).1 := by
  cases ran : s.skipMessageKeys kdf e upto with
  | mk left result =>
      cases result with
      | error err =>
          rw [skipMessageKeys_error ran]
          exact .refl s
      | ok =>
          obtain ⟨cs, ch, found, chain, ⟨-, rfl⟩ | ⟨ahead, -, room, rfl⟩⟩ := skipMessageKeys_ok ran
          · exact .refl _
          · exact (Move.skip found chain ahead room).moves

/-- The events of a receive past its fold. -/
def receivedEvents (e n : UInt64) : Except SpqrError K → List (Event K)
  | .ok key => [.received e n key]
  | .error _ => []

theorem receiveFolded_moves (kdf : Kdf K) (s : State K) (e n : UInt64) :
    Moves kdf offered s (receivedEvents e n (s.receiveFolded kdf e n).2) (s.receiveFolded kdf e n).1 := by
  unfold receiveFolded
  split
  · rename_i key left stored
    obtain ⟨k, rest, taken, rfl, -, -, rfl⟩ := trySkipped_ok stored
    exact (Move.serve taken).moves
  · have skips : Moves kdf offered s [] _ := skipMessageKeys_moves kdf s e (n.saturatingSub 1)
    split
    · rename_i mid err skipped
      rw [skipped] at skips
      exact skips
    · rename_i mid skipped
      rw [skipped] at skips
      cases ran : mid.receiveOn kdf e n with
      | mk left result =>
          cases result with
          | error err =>
              rw [receiveOn_error ran]
              exact skips
          | ok key =>
              obtain ⟨cs, ch, found, chain, climbs, rfl, rfl⟩ := receiveOn_ok ran
              exact skips.trans (Move.receive found chain climbs).moves

/-- **Every call is a few moves**, also when it is refused. -/
theorem call_moves (kdf : Kdf K) (s : State K) (c : Call K)
    (offers : ∀ o, c.output = some o → offered o) :
    Moves kdf offered s (call kdf s c).2 (call kdf s c).1 := by
  cases c with
  | send e output =>
      have folds : Moves kdf offered s [] (s.maybeAdvance kdf output).1 :=
        maybeAdvance_moves kdf s offers
      rw [call, State.send]
      cases ran : s.maybeAdvance kdf output with
      | mk mid result =>
          rw [ran] at folds
          cases result with
          | error err => exact folds
          | ok =>
              cases takes : mid.sendOn kdf e with
              | mk left answer =>
                  cases answer with
                  | error err =>
                      simp only [takes]
                      rw [sendOn_error takes]
                      exact folds
                  | ok taken =>
                      obtain ⟨cs, ch, found, chain, climbs, key, rfl⟩ := sendOn_ok takes
                      simp only [takes]
                      rw [key]
                      exact folds.trans (Move.send found chain climbs).moves
  | receive e output n =>
      have folds : Moves kdf offered s [] (s.maybeAdvance kdf output).1 :=
        maybeAdvance_moves kdf s offers
      rw [call, State.receive]
      cases ran : s.maybeAdvance kdf output with
      | mk mid result =>
          rw [ran] at folds
          cases result with
          | error err => exact folds
          | ok =>
              have takes := folds.trans (receiveFolded_moves kdf mid e n)
              simp only
              generalize mid.receiveFolded kdf e n = answer at takes ⊢
              obtain ⟨left, key | key⟩ := answer
              · exact takes
              · exact takes
  | evictOldest count => exact (Move.evict count).moves

/-- **The run rule**: what every move keeps, of the events so far and the state,
every run of calls keeps. -/
theorem run_keeps {inv : List (Event K) → State K → Prop}
    (keeps : ∀ past s now s', Move kdf offered s now s' → inv past s → inv (past ++ now) s')
    {past : List (Event K)} (start : inv past s) {calls : List (Call K)}
    (offers : ∀ c ∈ calls, ∀ o, c.output = some o → offered o) :
    inv (past ++ ((call kdf).run s calls).2) ((call kdf).run s calls).1 :=
  Machine.Keeps.run (fun _ s c offers here => (call_moves kdf s c offers).keeps keeps here) start
    offers

end State

end Tacenta.Spqr
