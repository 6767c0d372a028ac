/-
# Tacenta.Spqr.Window -- the chains of the epochs kept

A sparse ratchet that is only advanced epoch by epoch has, at any moment, both
chains of its current epoch and of the one before: `Open`.  Every operation
keeps it, so a send on one of those two epochs finds its chain
(`Open.sendOn_error`), and the fold of the next epoch's output is never out of
order (`maybeAdvance_error`).
-/
import Tacenta.Spqr.Invariant

set_option autoImplicit false

namespace Tacenta.Spqr.State

variable {K : Type} {kdf : Kdf K} {s s' : State K}

/-- `e` is the current epoch or the one before it. -/
def InWindow (s : State K) (e : UInt64) : Prop :=
  e.toNat ≤ s.epoch.toNat ∧ s.epoch.toNat ≤ e.toNat + 1

/-- Both chains of every epoch in the window are there. -/
def Open (s : State K) : Prop :=
  ∀ e, s.InWindow e → ∃ send receive,
    s.findChains e = some { send := some send, receive := some receive }

/-- The output is the next epoch's. -/
def FitsNext (s : State K) (out : Option (Output K)) : Prop :=
  ∀ o, out = some o → o.keyEpoch.toNat = s.epoch.toNat + 1

theorem freshChains_both (d : Direction) (k1 k2 : K) : ∃ send receive,
    some (freshChains d k1 k2) = some { send := some send, receive := some receive } :=
  ⟨_, _, rfl⟩

theorem init_open (kdf : Kdf K) (sk : Bytes) (direction : Direction) :
    Open (init kdf sk direction) := by
  intro e inside
  have zero : e = 0 := by
    rw [← UInt64.toNat_inj]
    simpa [InWindow, init] using inside.1
  subst zero
  exact ⟨_, _, rfl⟩

/-- **The fold moves the window on.** -/
theorem Open.folded (opened : Open s) {out : Output K}
    (next : out.keyEpoch.toNat = s.epoch.toNat + 1) (below : s.epoch.toNat + 1 < 2 ^ 64 - 1) :
    Open (s.folded kdf out) := by
  intro e inside
  simp only [InWindow, State.folded, clearOldEpochs, State.setChains] at inside
  have two : epochsKept.toNat = 2 := rfl
  have covered : kept out.keyEpoch e = true := by
    simp only [kept, decide_eq_true_eq, UInt64.lt_iff_toNat_lt, UInt64.toNat_saturatingAdd, two]
    omega
  rw [State.folded, findChains_clearOldEpochs, if_pos covered]
  by_cases newest : e = out.keyEpoch
  · rw [newest, findChains_setChains_self]
    exact freshChains_both _ _ _
  · rw [findChains_setChains_of_ne newest]
    refine opened e ⟨?_, ?_⟩
    · have : e.toNat ≠ out.keyEpoch.toNat := fun h => newest (UInt64.toNat_inj.1 h)
      omega
    · omega

theorem Open.maybeAdvance (opened : Open s) {out : Option (Output K)}
    (advanced : s.maybeAdvance kdf out = (s', .ok ())) : Open s' := by
  obtain ⟨-, rfl⟩ | ⟨o, -, folds⟩ := maybeAdvance_ok advanced
  · exact opened
  · obtain ⟨below, next, rfl⟩ := advance_ok folds
    exact opened.folded next below

/-- The fold of the next epoch's output fails only at the ceiling. -/
theorem maybeAdvance_error {out : Option (Output K)} (fits : FitsNext s out) {e : SpqrError}
    (refused : (s.maybeAdvance kdf out).2 = .error e) : e = .chainExhausted := by
  cases out with
  | none => simp [maybeAdvance] at refused
  | some o =>
      have next := fits o rfl
      rw [maybeAdvance, advance_eq] at refused
      split at refused
      · exact (Except.error.inj refused).symm
      · rw [if_neg (by omega)] at refused
        simp at refused

/-- Replacing an epoch's chains by two others keeps the window open. -/
theorem Open.setChains (opened : Open s) (e : UInt64) (send receive : Chain K) :
    Open (s.setChains e { send := some send, receive := some receive }) := by
  intro e' inside
  by_cases same : e' = e
  · rw [same, findChains_setChains_self]
    exact ⟨_, _, rfl⟩
  · rw [findChains_setChains_of_ne same]
    exact opened e' inside

/-- A sending chain of the window is there, and its counter is the only thing
that can refuse it. -/
theorem Open.sendOn_error (opened : Open s) {e : UInt64} (inside : s.InWindow e) {err : SpqrError}
    (refused : (s.sendOn kdf e).2 = .error err) : err = .chainExhausted := by
  obtain ⟨send, receive, found⟩ := opened e inside
  rw [sendOn, found] at refused
  simp only at refused
  split at refused
  · exact (Except.error.inj refused).symm
  · simp at refused

theorem Open.sendOn (opened : Open s) {e n : UInt64} {key : K} (inside : s.InWindow e)
    (sent : s.sendOn kdf e = (s', .ok (n, key))) : Open s' := by
  obtain ⟨cs, ch, found, -, -, -, rfl⟩ := sendOn_ok sent
  obtain ⟨send, receive, here⟩ := opened e inside
  rw [here, Option.some.injEq] at found
  subst found
  exact opened.setChains e _ receive

/-- The chains of an epoch that a lookup finds, outside the window or in it: a
received message needs the receiving one only, and keeps the sending one. -/
theorem Open.setReceive (opened : Open s) {e : UInt64} {cs : Chains K}
    (found : s.findChains e = some cs) (receive : Chain K) :
    Open (s.setChains e { send := cs.send, receive := some receive }) := by
  intro e' inside
  by_cases same : e' = e
  · rw [same, findChains_setChains_self]
    obtain ⟨send, receive', here⟩ := opened e' inside
    rw [same, found, Option.some.injEq] at here
    subst here
    exact ⟨send, receive, rfl⟩
  · rw [findChains_setChains_of_ne same]
    exact opened e' inside

theorem Open.receiveFolded (opened : Open s) {e n : UInt64} {key : K}
    (received : s.receiveFolded kdf e n = (s', .ok key)) : Open s' := by
  obtain stored | ⟨-, mid, skipped, taken⟩ := receiveFolded_ok received
  · obtain ⟨k, left, -, -, -, -, rfl⟩ := trySkipped_ok stored
    exact opened
  · have onChain : Open mid := by
      obtain ⟨cs, ch, found, -, ⟨-, rfl⟩ | ⟨-, -, -, rfl⟩⟩ := skipMessageKeys_ok skipped
      · exact opened
      · exact Open.setReceive (s := { s with skipped := _ }) opened found _
    obtain ⟨cs, ch, found, -, -, -, rfl⟩ := receiveOn_ok taken
    exact onChain.setReceive found _

/-- **Receiving keeps the window open.** -/
theorem Open.receive (opened : Open s) {e n : UInt64} {out : Option (Output K)} {key : K}
    (received : s.receive kdf e out n = (s', .ok key)) : Open s' := by
  obtain ⟨mid, advanced, taken⟩ := receive_ok received
  exact (opened.maybeAdvance advanced).receiveFolded taken

/-- A receive is out of order by epoch only in its fold. -/
theorem receiveFolded_ne_epochOutOfOrder {e n : UInt64} :
    (s.receiveFolded kdf e n).2 ≠ .error .epochOutOfOrder := by
  unfold receiveFolded
  split
  · simp
  · split
    · rename_i mid err skipped
      have never : ∀ upto, (s.skipMessageKeys kdf e upto).2 ≠ .error .epochOutOfOrder := by
        intro upto
        unfold skipMessageKeys
        split
        · simp
        · split
          · simp
          · split
            · simp
            · simp only
              split
              · simp
              · split <;> simp
      intro same
      refine never (n.saturatingSub 1) ?_
      rw [skipped]
      exact congrArg Except.error (Except.error.inj same)
    · unfold receiveOn
      repeat' split
      all_goals simp

theorem receive_ne_epochOutOfOrder {e n : UInt64} {out : Option (Output K)} (fits : FitsNext s out) :
    (s.receive kdf e out n).2 ≠ .error .epochOutOfOrder := by
  unfold receive
  split
  · rename_i mid err refused
    intro same
    have := maybeAdvance_error fits (congrArg Prod.snd refused)
    simp only [Except.error.injEq] at same
    rw [this] at same
    simp at same
  · exact receiveFolded_ne_epochOutOfOrder

/-- The epoch a send names, in the window after the fold, has an open chain: the
send is refused only at a ceiling. -/
theorem Open.send_error (opened : Open s) {e : UInt64} {out : Option (Output K)}
    (fits : FitsNext s out)
    (inside : e.toNat ≤ s.epoch.toNat + out.toList.length ∧
      s.epoch.toNat + out.toList.length ≤ e.toNat + 1)
    {err : SpqrError} (refused : (s.send kdf e out).2 = .error err) : err = .chainExhausted := by
  unfold State.send at refused
  split at refused
  · rename_i mid err' folds
    simp only [Except.error.injEq] at refused
    subst refused
    exact maybeAdvance_error fits (by rw [folds])
  · rename_i mid folds
    have epoch := (maybeAdvance_frame folds).1
    exact (opened.maybeAdvance folds).sendOn_error (by rw [InWindow, epoch]; exact inside) refused

theorem Open.send (opened : Open s) {e n : UInt64} {out : Option (Output K)} {key : K}
    (inside : e.toNat ≤ s.epoch.toNat + out.toList.length ∧
      s.epoch.toNat + out.toList.length ≤ e.toNat + 1)
    (sent : s.send kdf e out = (s', .ok (n, key))) : Open s' := by
  obtain ⟨mid, advanced, taken⟩ := send_ok sent
  have epoch := (maybeAdvance_frame advanced).1
  exact (opened.maybeAdvance advanced).sendOn (by rw [InWindow, epoch]; exact inside) taken

end Tacenta.Spqr.State
