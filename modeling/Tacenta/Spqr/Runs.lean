/-
# Tacenta.Spqr.Runs -- what holds along every run of a sparse ratchet

Over runs of arbitrary calls from `init`, refused ones included:

* `Sound`: both chains of every open epoch are there, and every stored key's
  number is between one and its epoch's receive counter;
* `Served`: no pair of epoch and number is answered twice
  (`receive_at_most_once`), because a pair answered is behind its chain and not
  stored, and an epoch retired stays below the current one;
* `Drawn`: no pair is drawn twice for sending;
* `Accounted`: a number behind the receive counter was answered, evicted, or is
  stored.
-/
import Tacenta.Spqr.Moves

set_option autoImplicit false

namespace Tacenta.Spqr.State

variable {K : Type} {kdf : Kdf K} {offered : Output K → Prop} {s s' : State K}
  {past now : List (Event K)}

/-! ## Looking up one chain -/

/-- The sending chain of an epoch. -/
def sendChain (s : State K) (e : UInt64) : Option (Chain K) := (s.findChains e).bind Chains.send

/-- The receiving chain of an epoch. -/
def receiveChain (s : State K) (e : UInt64) : Option (Chain K) :=
  (s.findChains e).bind Chains.receive

theorem sendChain_of {e : UInt64} {cs : Chains K} (found : s.findChains e = some cs) :
    s.sendChain e = cs.send := by
  rw [sendChain, found, Option.bind_some]

theorem receiveChain_of {e : UInt64} {cs : Chains K} (found : s.findChains e = some cs) :
    s.receiveChain e = cs.receive := by
  rw [receiveChain, found, Option.bind_some]

theorem receiveCount_eq_some {e n : UInt64} :
    s.receiveCount e = some n ↔ ∃ ch, s.receiveChain e = some ch ∧ ch.n = n := by
  unfold receiveCount receiveChain
  cases s.findChains e with
  | none => simp
  | some cs => cases h : cs.receive <;> simp [h]

theorem sendChain_setChains (e e' : UInt64) (c : Chains K) :
    (s.setChains e c).sendChain e' = if e' = e then c.send else s.sendChain e' := by
  split
  · rename_i same
    rw [same, sendChain_of (findChains_setChains_self e c)]
  · rename_i other
    rw [sendChain, findChains_setChains_of_ne other, sendChain]

theorem receiveChain_setChains (e e' : UInt64) (c : Chains K) :
    (s.setChains e c).receiveChain e' = if e' = e then c.receive else s.receiveChain e' := by
  split
  · rename_i same
    rw [same, receiveChain_of (findChains_setChains_self e c)]
  · rename_i other
    rw [receiveChain, findChains_setChains_of_ne other, receiveChain]

/-- A lookup after a fold: the fresh chains, or what the window still covers. -/
theorem findChains_folded {out : Output K} (below : s.epoch.toNat + 1 < 2 ^ 64 - 1)
    (next : out.keyEpoch.toNat = s.epoch.toNat + 1) (e : UInt64) :
    (s.folded kdf out).findChains e =
      if e = out.keyEpoch then
        some (freshChains s.direction (kdfRk kdf s.rk out.key).2.1 (kdfRk kdf s.rk out.key).2.2)
      else if kept out.keyEpoch e then s.findChains e else none := by
  rw [folded, findChains_clearOldEpochs]
  by_cases newest : e = out.keyEpoch
  · rw [if_pos newest, newest, if_pos (kept_self (by omega)), findChains_setChains_self]
  · rw [if_neg newest, findChains_setChains_of_ne newest]
    rfl

/-- The chains of an epoch below the next one survive a fold or retire. -/
theorem findChains_folded_old {out : Output K} (below : s.epoch.toNat + 1 < 2 ^ 64 - 1)
    (next : out.keyEpoch.toNat = s.epoch.toNat + 1) {e : UInt64}
    (old : e.toNat ≤ s.epoch.toNat) {cs : Chains K}
    (found : (s.folded kdf out).findChains e = some cs) : s.findChains e = some cs := by
  have older : e ≠ out.keyEpoch := by
    intro same
    rw [same] at old
    omega
  rw [findChains_folded below next, if_neg older] at found
  split at found
  · exact found
  · simp at found

theorem receiveChain_folded_old {out : Output K} (below : s.epoch.toNat + 1 < 2 ^ 64 - 1)
    (next : out.keyEpoch.toNat = s.epoch.toNat + 1) {e : UInt64}
    (old : e.toNat ≤ s.epoch.toNat) {ch : Chain K}
    (found : (s.folded kdf out).receiveChain e = some ch) : s.receiveChain e = some ch := by
  obtain ⟨cs, here, chain⟩ := Option.bind_eq_some_iff.1 found
  rw [receiveChain_of (findChains_folded_old below next old here), chain]

theorem sendChain_folded_old {out : Output K} (below : s.epoch.toNat + 1 < 2 ^ 64 - 1)
    (next : out.keyEpoch.toNat = s.epoch.toNat + 1) {e : UInt64}
    (old : e.toNat ≤ s.epoch.toNat) {ch : Chain K}
    (found : (s.folded kdf out).sendChain e = some ch) : s.sendChain e = some ch := by
  obtain ⟨cs, here, chain⟩ := Option.bind_eq_some_iff.1 found
  rw [sendChain_of (findChains_folded_old below next old here), chain]

theorem sendChain_skippedTo {e upto : UInt64} {cs : Chains K} {ch : Chain K}
    (found : s.findChains e = some cs) (e' : UInt64) :
    (s.skippedTo kdf e cs ch upto).sendChain e' = s.sendChain e' := by
  rw [skippedTo, sendChain_setChains]
  split
  · rename_i same
    rw [same, sendChain_of found]
  · rfl

theorem receiveChain_skippedTo {e upto : UInt64} {cs : Chains K} {ch : Chain K} (e' : UInt64) :
    (s.skippedTo kdf e cs ch upto).receiveChain e' =
      if e' = e then some ⟨chainFrom kdf ch.ck ch.n.toNat (upto.toNat - ch.n.toNat), upto⟩
      else s.receiveChain e' := by
  rw [skippedTo, receiveChain_setChains]
  rfl

/-- Open epochs are not past the current one. -/
theorem Valid.epoch_le (valid : Valid s) {e : UInt64} {cs : Chains K}
    (found : s.findChains e = some cs) : e.toNat ≤ s.epoch.toNat :=
  UInt64.le_iff_toNat_le.1 (valid.window (e, cs) (mem_of_findChains found)).1

/-- What a successful `checkedAdd 1` yields is the next number. -/
theorem next_toNat {n m : UInt64} (climbs : n.checkedAdd 1 = some m) : m.toNat = n.toNat + 1 := by
  rw [UInt64.checkedAdd_eq_some] at climbs
  exact climbs

/-! ## Every move keeps the decoder's invariant -/

theorem Move.valid (move : Move kdf offered s now s') (valid : Valid s) : Valid s' := by
  cases move with
  | fold _ below next => exact valid.folded below next
  | send found => exact valid.setChains found _
  | skip found _ ahead room => exact valid.skippedTo found ahead room
  | serve taken => exact valid.of_sublist (takeFirst_sublist taken)
  | receive found => exact valid.setChains found _
  | evict count => exact valid.of_sublist (List.drop_sublist _ _)

theorem Moves.valid (moves : Moves kdf offered s now s') (valid : Valid s) : Valid s' := by
  induction moves with
  | refl => exact valid
  | step move _ ih => exact ih (move.valid valid)

/-- **Every call keeps the decoder's invariant, on every exit.** -/
theorem Valid.call (valid : Valid s) (kdf : Kdf K) (c : Call K) :
    Valid (State.call kdf s c).1 :=
  (show Moves kdf (fun _ => True) s _ _ from call_moves kdf s c fun _ _ => trivial).valid valid

theorem call_send (kdf : Kdf K) (s : State K) (e : UInt64) (output : Option (Output K)) :
    (call kdf s (.send e output)).1 = (s.send kdf e output).1 := by
  rw [call]
  generalize s.send kdf e output = left
  obtain ⟨left, answer | answer⟩ := left
  · rfl
  · rfl

theorem call_receive (kdf : Kdf K) (s : State K) (e n : UInt64) (output : Option (Output K)) :
    (call kdf s (.receive e output n)).1 = (s.receive kdf e output n).1 := by
  rw [call]
  generalize s.receive kdf e output n = left
  obtain ⟨left, answer | answer⟩ := left
  · rfl
  · rfl

/-! ## The chains and the store -/

/-- Both chains of every open epoch, and stored keys behind their counters. -/
structure Sound (s : State K) : Prop where
  valid : Valid s
  paired : ∀ e cs, s.findChains e = some cs → cs.send.isSome = true ∧ cs.receive.isSome = true
  stored : ∀ k ∈ s.skipped, ∃ ch, s.receiveChain k.epoch = some ch ∧ 1 ≤ k.n.toNat ∧
    k.n.toNat ≤ ch.n.toNat

theorem init_sound (kdf : Kdf K) (sk : Bytes) (direction : Direction) :
    Sound (init kdf sk direction) := by
  refine ⟨init_valid kdf sk direction, ?_, by simp [init]⟩
  intro e cs found
  have here := mem_of_findChains found
  simp only [init, List.mem_singleton, Prod.mk.injEq] at here
  rw [here.2]
  exact ⟨rfl, rfl⟩

/-- A stored key's epoch is open, and not past the current one. -/
theorem Sound.stored_epoch (sound : Sound s) {k : Skipped K} (member : k ∈ s.skipped) :
    k.epoch.toNat ≤ s.epoch.toNat := by
  obtain ⟨c, here, same⟩ := sound.valid.keyed k member
  rw [← same]
  exact UInt64.le_iff_toNat_le.1 (sound.valid.window c here).1

/-- A skip finds nothing stored under the numbers it stores: the purge is for states
that were imported only. -/
theorem Sound.purge (sound : Sound s) {e upto : UInt64} {cs : Chains K} {ch : Chain K}
    (found : s.findChains e = some cs) (chain : cs.receive = some ch) :
    (s.skipped.filter fun k =>
      !(decide (k.epoch = e) && decide (ch.n < k.n) && decide (k.n ≤ upto))) = s.skipped := by
  rw [List.filter_eq_self]
  intro k member
  by_cases same : k.epoch = e
  · obtain ⟨ch', here, -, behind⟩ := sound.stored k member
    rw [same, receiveChain_of found, chain, Option.some.injEq] at here
    subst here
    have notAhead : ¬ ch.n < k.n := by
      rw [UInt64.lt_iff_toNat_lt]
      omega
    simp [notAhead]
  · simp [same]

theorem mem_skippedTo {e upto : UInt64} {cs : Chains K} {ch : Chain K} {k : Skipped K}
    (ahead : ch.n < upto) (member : k ∈ (s.skippedTo kdf e cs ch upto).skipped) :
    k ∈ s.skipped ∨ (k.epoch = e ∧ ch.n.toNat < k.n.toNat ∧ k.n.toNat ≤ upto.toNat) := by
  rcases List.mem_append.1 member with old | new
  · exact .inl (List.mem_filter.1 old).1
  · have top := upto.toNat_lt
    rw [UInt64.lt_iff_toNat_lt] at ahead
    obtain ⟨epoch, above, upTo⟩ := mem_skippedKeys (by omega) new
    exact .inr ⟨epoch, above, by omega⟩

/-- Every number of a skip is stored by it. -/
theorem exists_skippedTo (kdf : Kdf K) (s : State K) (e : UInt64) (cs : Chains K)
    {upto n : UInt64} {ch : Chain K} (above : ch.n.toNat < n.toNat) (upTo : n.toNat ≤ upto.toNat) :
    ∃ k ∈ (s.skippedTo kdf e cs ch upto).skipped, k.epoch = e ∧ k.n = n := by
  refine ⟨⟨e, UInt64.ofNat (ch.n.toNat + (n.toNat - ch.n.toNat - 1) + 1),
    messageFrom kdf ch.ck ch.n.toNat (n.toNat - ch.n.toNat - 1)⟩, ?_, rfl, ?_⟩
  · refine List.mem_append_right _ (List.mem_map.2 ⟨n.toNat - ch.n.toNat - 1, ?_, rfl⟩)
    rw [List.mem_range]
    omega
  · have number : ch.n.toNat + (n.toNat - ch.n.toNat - 1) + 1 = n.toNat := by omega
    rw [number, UInt64.ofNat_toNat]

theorem Move.sound (move : Move kdf offered s now s') (sound : Sound s) : Sound s' := by
  refine ⟨move.valid sound.valid, ?_, ?_⟩
  · intro e cs here
    cases move with
    | fold _ below next =>
        rw [findChains_folded below next] at here
        split at here
        · rw [← Option.some.inj here]
          exact ⟨rfl, rfl⟩
        · split at here
          · exact sound.paired e cs here
          · simp at here
    | @send e' _ _ _ found chain climbs =>
        by_cases same : e = e'
        · rw [same, findChains_setChains_self] at here
          rw [← Option.some.inj here]
          exact ⟨rfl, (sound.paired _ _ found).2⟩
        · rw [findChains_setChains_of_ne same] at here
          exact sound.paired e cs here
    | @skip e' _ _ _ found chain ahead room =>
        by_cases same : e = e'
        · rw [same, skippedTo, findChains_setChains_self] at here
          rw [← Option.some.inj here]
          exact ⟨(sound.paired _ _ found).1, rfl⟩
        · rw [skippedTo, findChains_setChains_of_ne same] at here
          exact sound.paired e cs here
    | @receive e' _ _ _ found chain climbs =>
        by_cases same : e = e'
        · rw [same, findChains_setChains_self] at here
          rw [← Option.some.inj here]
          exact ⟨(sound.paired _ _ found).1, rfl⟩
        · rw [findChains_setChains_of_ne same] at here
          exact sound.paired e cs here
    | serve | evict => exact sound.paired e cs here
  · intro k member
    cases move with
    | fold _ below next =>
        obtain ⟨old, covered⟩ := List.mem_filter.1 member
        obtain ⟨ch, here, bounds⟩ := sound.stored k old
        refine ⟨ch, ?_, bounds⟩
        have older : k.epoch ≠ _ := fun same => by
          have := sound.stored_epoch old
          rw [same, next] at this
          omega
        rw [receiveChain, findChains_folded below next, if_neg older, if_pos covered]
        exact here
    | @send e _ cs _ found =>
        obtain ⟨ch, here, bounds⟩ := sound.stored k member
        refine ⟨ch, ?_, bounds⟩
        rw [receiveChain_setChains]
        split
        · rename_i same
          rw [same, receiveChain_of found] at here
          exact here
        · exact here
    | @skip e upto cs ch found chain ahead room =>
        rw [receiveChain_skippedTo]
        obtain old | ⟨epoch, above, upTo⟩ := mem_skippedTo ahead member
        · obtain ⟨ch', here, positive, behind⟩ := sound.stored k old
          split
          · rename_i same
            rw [same, receiveChain_of found, chain, Option.some.injEq] at here
            subst here
            rw [UInt64.lt_iff_toNat_lt] at ahead
            exact ⟨_, rfl, positive, show k.n.toNat ≤ upto.toNat by omega⟩
          · exact ⟨ch', here, positive, behind⟩
        · rw [if_pos epoch]
          exact ⟨_, rfl, by omega, upTo⟩
    | serve taken => exact sound.stored k ((takeFirst_sublist taken).subset member)
    | @receive e n cs ch found chain climbs =>
        obtain ⟨ch', here, positive, behind⟩ := sound.stored k member
        rw [receiveChain_setChains]
        split
        · rename_i same
          rw [same, receiveChain_of found, chain, Option.some.injEq] at here
          subst here
          have after := next_toNat climbs
          exact ⟨_, rfl, positive, show k.n.toNat ≤ n.toNat by omega⟩
        · exact ⟨ch', here, positive, behind⟩
    | evict count => exact sound.stored k ((List.drop_sublist _ _).subset member)

/-! ## No pair is answered twice -/

/-- The pairs answered so far: each once, behind its chain, and not stored. -/
structure Served (past : List (Event K)) (s : State K) : Prop where
  once : (past.filterMap Event.receivedPair).Nodup
  opened : ∀ e n, (e, n) ∈ past.filterMap Event.receivedPair → e.toNat ≤ s.epoch.toNat
  behind : ∀ e n, (e, n) ∈ past.filterMap Event.receivedPair →
    ∀ ch, s.receiveChain e = some ch → n.toNat ≤ ch.n.toNat
  gone : ∀ e n, (e, n) ∈ past.filterMap Event.receivedPair →
    ∀ k ∈ s.skipped, ¬ (k.epoch = e ∧ k.n = n)

/-- A move that answers nothing keeps the answered pairs answered. -/
theorem Served.quiet (served : Served past s) (silent : now.filterMap Event.receivedPair = [])
    (climbs : s.epoch.toNat ≤ s'.epoch.toNat)
    (chains : ∀ e ch, e.toNat ≤ s.epoch.toNat → s'.receiveChain e = some ch →
      ∃ ch', s.receiveChain e = some ch' ∧ ch'.n.toNat ≤ ch.n.toNat)
    (store : ∀ k ∈ s'.skipped, k ∈ s.skipped ∨
      ∃ ch, s.receiveChain k.epoch = some ch ∧ ch.n.toNat < k.n.toNat) :
    Served (past ++ now) s' := by
  have same : (past ++ now).filterMap Event.receivedPair = past.filterMap Event.receivedPair := by
    rw [List.filterMap_append, silent, List.append_nil]
  refine ⟨by rw [same]; exact served.once, ?_, ?_, ?_⟩
  · intro e n answered
    rw [same] at answered
    exact (served.opened e n answered).trans climbs
  · intro e n answered ch here
    rw [same] at answered
    obtain ⟨ch', before, grown⟩ := chains e ch (served.opened e n answered) here
    exact (served.behind e n answered ch' before).trans grown
  · rintro e n answered k member ⟨epoch, number⟩
    rw [same] at answered
    obtain old | ⟨ch, here, above⟩ := store k member
    · exact served.gone e n answered k old ⟨epoch, number⟩
    · rw [epoch] at here
      have := served.behind e n answered ch here
      rw [number] at above
      omega

/-- A move that answers a new pair keeps the answered pairs answered once. -/
theorem Served.answer {e n : UInt64} {key : K} (served : Served past s)
    (fresh : (e, n) ∉ past.filterMap Event.receivedPair) (epoch : s'.epoch = s.epoch)
    (opened : e.toNat ≤ s.epoch.toNat)
    (chains : ∀ e' ch, s'.receiveChain e' = some ch →
      ∃ ch', s.receiveChain e' = some ch' ∧ ch'.n.toNat ≤ ch.n.toNat)
    (behind : ∀ ch, s'.receiveChain e = some ch → n.toNat ≤ ch.n.toNat)
    (store : ∀ k ∈ s'.skipped, k ∈ s.skipped) (gone : ∀ k ∈ s'.skipped, ¬ (k.epoch = e ∧ k.n = n)) :
    Served (past ++ [.received e n key]) s' := by
  have pairs : (past ++ [Event.received e n key]).filterMap Event.receivedPair =
      past.filterMap Event.receivedPair ++ [(e, n)] := by
    rw [List.filterMap_append]
    rfl
  refine ⟨?_, ?_, ?_, ?_⟩
  · rw [pairs]
    refine List.nodup_append.2 ⟨served.once, List.nodup_singleton _, ?_⟩
    rintro a old b new rfl
    rw [List.mem_singleton.1 new] at old
    exact fresh old
  all_goals
    intro e' n' answered
    rw [pairs, List.mem_append, List.mem_singleton, Prod.mk.injEq] at answered
  · rw [epoch]
    rcases answered with old | ⟨rfl, -⟩
    · exact served.opened e' n' old
    · exact opened
  · intro ch here
    rcases answered with old | ⟨rfl, rfl⟩
    · obtain ⟨ch', before, grown⟩ := chains e' ch here
      exact (served.behind e' n' old ch' before).trans grown
    · exact behind ch here
  · intro k member
    rcases answered with old | ⟨rfl, rfl⟩
    · exact served.gone e' n' old k (store k member)
    · exact gone k member

theorem Move.served (move : Move kdf offered s now s') (sound : Sound s) (served : Served past s) :
    Served (past ++ now) s' := by
  cases move with
  | fold _ below next =>
      refine served.quiet rfl (by simp only [folded, clearOldEpochs, State.setChains]; omega) ?_ ?_
      · intro e ch old here
        exact ⟨ch, receiveChain_folded_old below next old here, le_rfl⟩
      · intro k member
        exact .inl (List.mem_filter.1 member).1
  | @send e _ cs _ found =>
      refine served.quiet rfl le_rfl ?_ fun k member => .inl member
      intro e' ch _ here
      rw [receiveChain_setChains] at here
      split at here
      · rename_i same
        exact ⟨ch, by rw [same, receiveChain_of found]; exact here, le_rfl⟩
      · exact ⟨ch, here, le_rfl⟩
  | @skip e upto cs ch found chain ahead room =>
      refine served.quiet rfl le_rfl ?_ ?_
      · intro e' ch' _ here
        rw [receiveChain_skippedTo] at here
        split at here
        · rename_i same
          rw [← Option.some.inj here]
          exact ⟨ch, by rw [same, receiveChain_of found, chain],
            (UInt64.lt_iff_toNat_lt.1 ahead).le⟩
        · exact ⟨ch', here, le_rfl⟩
      · intro k member
        obtain old | ⟨epoch, above, -⟩ := mem_skippedTo ahead member
        · exact .inl old
        · exact .inr ⟨ch, by rw [epoch, receiveChain_of found, chain], above⟩
  | @serve e n k left taken =>
      obtain ⟨before, after, split, rest, matches_, -⟩ := takeFirst_eq_some taken
      simp only [named, decide_eq_true_eq] at matches_
      obtain ⟨rfl, rfl⟩ := matches_
      have member : k ∈ s.skipped := (takeFirst_mem taken).1
      refine served.answer ?_ rfl (sound.stored_epoch member) ?_ ?_ ?_ ?_
      · intro answered
        exact served.gone _ _ answered k member ⟨rfl, rfl⟩
      · intro e' ch here
        exact ⟨ch, here, le_rfl⟩
      · intro ch here
        obtain ⟨ch', here', -, behind⟩ := sound.stored k member
        rw [show s.receiveChain k.epoch = some ch from here, Option.some.injEq] at here'
        rw [here']
        exact behind
      · intro k' member'
        exact (takeFirst_sublist taken).subset member'
      · rintro k' member' ⟨sameEpoch, sameN⟩
        have apart := sound.valid.apart
        rw [split, List.pairwise_append, List.pairwise_cons] at apart
        obtain ⟨-, ⟨later, -⟩, earlier⟩ := apart
        rw [rest] at member'
        rcases List.mem_append.1 member' with early | late
        · exact earlier k' early k (List.mem_cons_self ..) ⟨sameEpoch, sameN⟩
        · exact later k' late ⟨sameEpoch.symm, sameN.symm⟩
  | @receive e n cs ch found chain climbs =>
      have after := next_toNat climbs
      have here : s.receiveChain e = some ch := by rw [receiveChain_of found, chain]
      refine served.answer ?_ rfl (sound.valid.epoch_le found) ?_ ?_ (fun k member => member) ?_
      · intro answered
        have := served.behind e n answered ch here
        omega
      · intro e' ch' here'
        rw [receiveChain_setChains] at here'
        split at here'
        · rename_i same
          rw [← Option.some.inj here']
          exact ⟨ch, by rw [same, here], by simp only; omega⟩
        · exact ⟨ch', here', le_rfl⟩
      · intro ch' here'
        rw [receiveChain_setChains, if_pos rfl, Option.some.injEq] at here'
        rw [← here']
      · rintro k member ⟨rfl, rfl⟩
        obtain ⟨ch', here', -, behind⟩ := sound.stored k member
        rw [here, Option.some.injEq] at here'
        subst here'
        omega
  | evict count =>
      refine served.quiet ?_ le_rfl (fun e ch _ here => ⟨ch, here, le_rfl⟩) ?_
      · rw [List.filterMap_eq_nil_iff]
        intro event member
        obtain ⟨k, -, rfl⟩ := List.mem_map.1 member
        rfl
      · intro k member
        exact .inl ((List.drop_sublist _ _).subset member)

theorem run_served (kdf : Kdf K) (sk : Bytes) (direction : Direction) (calls : List (Call K)) :
    Sound ((call kdf).run (init kdf sk direction) calls).1 ∧
      Served ((call kdf).run (init kdf sk direction) calls).2
        ((call kdf).run (init kdf sk direction) calls).1 := by
  have start : Sound (init kdf sk direction) ∧ Served ([] : List (Event K)) (init kdf sk direction) :=
    ⟨init_sound kdf sk direction, ⟨List.nodup_nil, by simp, by simp, by simp⟩⟩
  have keeps : ∀ past s now s', Move kdf (fun _ => True) s now s' →
      Sound s ∧ Served past s → Sound s' ∧ Served (past ++ now) s' := by
    intro past s now s' move both
    exact ⟨move.sound both.1, move.served both.1 both.2⟩
  exact run_keeps keeps start fun _ _ _ _ => trivial

/-- **At most once**: along every run of calls from `init`, refused ones
included, no pair of epoch and number is answered by two receives. -/
theorem receive_at_most_once (kdf : Kdf K) (sk : Bytes) (direction : Direction)
    (calls : List (Call K)) :
    (((call kdf).run (init kdf sk direction) calls).2.filterMap Event.receivedPair).Nodup :=
  (run_served kdf sk direction calls).2.once

/-! ## No pair is drawn twice -/

/-- The pairs drawn for sending so far: each once, and behind its chain. -/
structure Drawn (past : List (Event K)) (s : State K) : Prop where
  once : (past.filterMap Event.sentPair).Nodup
  opened : ∀ e n, (e, n) ∈ past.filterMap Event.sentPair → e.toNat ≤ s.epoch.toNat
  behind : ∀ e n, (e, n) ∈ past.filterMap Event.sentPair →
    ∀ ch, s.sendChain e = some ch → n.toNat ≤ ch.n.toNat

/-- A move that draws nothing keeps the drawn pairs drawn. -/
theorem Drawn.quiet (drawn : Drawn past s) (silent : now.filterMap Event.sentPair = [])
    (climbs : s.epoch.toNat ≤ s'.epoch.toNat)
    (chains : ∀ e ch, e.toNat ≤ s.epoch.toNat → s'.sendChain e = some ch →
      s.sendChain e = some ch) : Drawn (past ++ now) s' := by
  have same : (past ++ now).filterMap Event.sentPair = past.filterMap Event.sentPair := by
    rw [List.filterMap_append, silent, List.append_nil]
  refine ⟨by rw [same]; exact drawn.once, ?_, ?_⟩
  · intro e n sent
    rw [same] at sent
    exact (drawn.opened e n sent).trans climbs
  · intro e n sent ch here
    rw [same] at sent
    exact drawn.behind e n sent ch (chains e ch (drawn.opened e n sent) here)

theorem Move.drawn (move : Move kdf offered s now s') (valid : Valid s) (drawn : Drawn past s) :
    Drawn (past ++ now) s' := by
  cases move with
  | fold _ below next =>
      refine drawn.quiet rfl (by simp only [folded, clearOldEpochs, State.setChains]; omega) ?_
      intro e ch old here
      exact sendChain_folded_old below next old here
  | @send e n cs ch found chain climbs =>
      have after := next_toNat climbs
      have here : s.sendChain e = some ch := by rw [sendChain_of found, chain]
      have pairs : (past ++ [Event.sent e n (kdfCk kdf ch.ck n).2]).filterMap Event.sentPair =
          past.filterMap Event.sentPair ++ [(e, n)] := by
        rw [List.filterMap_append]
        rfl
      refine ⟨?_, ?_, ?_⟩
      · rw [pairs]
        refine List.nodup_append.2 ⟨drawn.once, List.nodup_singleton _, ?_⟩
        rintro a old b new rfl
        rw [List.mem_singleton.1 new] at old
        have := drawn.behind e n old ch here
        omega
      · intro e' n' sent
        rw [pairs, List.mem_append, List.mem_singleton, Prod.mk.injEq] at sent
        rcases sent with old | ⟨rfl, -⟩
        · exact drawn.opened e' n' old
        · exact valid.epoch_le found
      · intro e' n' sent ch' here'
        rw [pairs, List.mem_append, List.mem_singleton, Prod.mk.injEq] at sent
        rw [sendChain_setChains] at here'
        split at here'
        · rename_i same
          rw [← Option.some.inj here']
          rcases sent with old | ⟨-, rfl⟩
          · rw [same] at old
            have := drawn.behind e n' old ch here
            exact show n'.toNat ≤ n.toNat by omega
          · exact le_rfl
        · rename_i other
          rcases sent with old | ⟨same, -⟩
          · exact drawn.behind e' n' old ch' here'
          · exact absurd same other
  | skip found =>
      refine drawn.quiet rfl le_rfl fun e ch _ here => ?_
      rw [sendChain_skippedTo found] at here
      exact here
  | serve => exact drawn.quiet rfl le_rfl fun e ch _ here => here
  | @receive e _ _ _ found =>
      refine drawn.quiet rfl le_rfl fun e' ch _ here => ?_
      rw [sendChain_setChains] at here
      split at here
      · rename_i same
        rw [same, sendChain_of found]
        exact here
      · exact here
  | evict count =>
      refine drawn.quiet ?_ le_rfl fun e ch _ here => here
      rw [List.filterMap_eq_nil_iff]
      intro event member
      obtain ⟨k, -, rfl⟩ := List.mem_map.1 member
      rfl

theorem init_drawn (kdf : Kdf K) (sk : Bytes) (direction : Direction) :
    Drawn ([] : List (Event K)) (init kdf sk direction) :=
  ⟨List.nodup_nil, by simp, by simp⟩

/-! ## Every number behind a counter is accounted for -/

/-- A pair was answered, evicted, or is stored. -/
def AccountedFor (past : List (Event K)) (s : State K) (e n : UInt64) : Prop :=
  (e, n) ∈ past.filterMap Event.receivedPair ∨ Event.evicted e n ∈ past ∨
    ∃ k ∈ s.skipped, k.epoch = e ∧ k.n = n

/-- Every number behind a receive counter is accounted for. -/
def Accounted (past : List (Event K)) (s : State K) : Prop :=
  ∀ e ch n, s.receiveChain e = some ch → 1 ≤ n.toNat → n.toNat ≤ ch.n.toNat →
    AccountedFor past s e n

/-- A pair accounted for stays so, if its key does when it is stored. -/
theorem AccountedFor.keep {e n : UInt64} (account : AccountedFor past s e n)
    (kept : ∀ k ∈ s.skipped, k.epoch = e → k.n = n → AccountedFor now s' e n) :
    AccountedFor (past ++ now) s' e n := by
  rw [AccountedFor, List.filterMap_append, List.mem_append, List.mem_append]
  rcases account with answered | gone | ⟨k, member, epoch, number⟩
  · exact .inl (.inl answered)
  · exact .inr (.inl (.inl gone))
  · rcases kept k member epoch number with answered | gone | still
    · exact .inl (.inr answered)
    · exact .inr (.inl (.inr gone))
    · exact .inr (.inr still)

/-- A move that keeps every stored key keeps what is accounted for. -/
theorem AccountedFor.stay {e n : UInt64} (account : AccountedFor past s e n)
    (kept : ∀ k ∈ s.skipped, k ∈ s'.skipped) : AccountedFor (past ++ now) s' e n :=
  account.keep fun k member epoch number => .inr (.inr ⟨k, kept k member, epoch, number⟩)

theorem Move.accounted (move : Move kdf offered s now s') (sound : Sound s) (account : Accounted past s) :
    Accounted (past ++ now) s' := by
  intro e ch n here positive behind
  cases move with
  | @fold out _ below next =>
      obtain ⟨cs, found, chain⟩ := Option.bind_eq_some_iff.1 here
      rw [findChains_folded below next] at found
      split at found
      · -- The fresh chains have answered nothing yet.
        rw [← Option.some.inj found, freshChains, Option.some.injEq] at chain
        rw [← chain] at behind
        simp only [UInt64.toNat_zero] at behind
        omega
      · split at found
        · rename_i covered
          refine (account e ch n (by rw [receiveChain_of found, chain]) positive behind).keep ?_
          intro k member epoch number
          exact .inr (.inr
            ⟨k, List.mem_filter.2 ⟨member, by rw [epoch]; exact covered⟩, epoch, number⟩)
        · simp at found
  | @send e' _ cs _ found =>
      have before : s.receiveChain e = some ch := by
        rw [receiveChain_setChains] at here
        split at here
        · rename_i same
          rw [same, receiveChain_of found]
          exact here
        · exact here
      exact (account e ch n before positive behind).stay fun k member => member
  | @skip e' upto cs ch' found chain ahead room =>
      have stays : ∀ k ∈ s.skipped, k ∈ (s.skippedTo kdf e' cs ch' upto).skipped := by
        intro k member
        refine List.mem_append_left _ ?_
        rw [sound.purge found chain]
        exact member
      rw [receiveChain_skippedTo] at here
      split at here
      · rename_i same
        subst same
        rw [← Option.some.inj here] at behind
        by_cases passed : n.toNat ≤ ch'.n.toNat
        · exact (account e ch' n (by rw [receiveChain_of found, chain]) positive passed).stay stays
        · exact .inr (.inr (exists_skippedTo kdf s e cs (Nat.lt_of_not_le passed) behind))
      · exact (account e ch n here positive behind).stay stays
  | @serve e' n' k left taken =>
      obtain ⟨before, after, split, rest, matches_, -⟩ := takeFirst_eq_some taken
      simp only [named, decide_eq_true_eq] at matches_
      refine (account e ch n here positive behind).keep fun k' member epoch number => ?_
      rw [split, List.mem_append, List.mem_cons] at member
      rcases member with early | rfl | late
      · exact .inr (.inr ⟨k', by rw [rest]; exact List.mem_append_left _ early, epoch, number⟩)
      · rw [← epoch, ← number, matches_.1, matches_.2]
        exact .inl (List.mem_singleton_self _)
      · exact .inr (.inr ⟨k', by rw [rest]; exact List.mem_append_right _ late, epoch, number⟩)
  | @receive e' n' cs ch' found chain climbs =>
      have next := next_toNat climbs
      have chain' : s.receiveChain e' = some ch' := by rw [receiveChain_of found, chain]
      rw [receiveChain_setChains] at here
      split at here
      · rename_i same
        subst same
        rw [← Option.some.inj here] at behind
        by_cases newest : n = n'
        · subst newest
          refine .inl ?_
          rw [List.filterMap_append]
          exact List.mem_append_right _ (.head _)
        · have other : n.toNat ≠ n'.toNat := fun h => newest (UInt64.toNat_inj.1 h)
          simp only at behind
          exact (account e ch' n chain' positive (by omega)).stay fun k member => member
      · exact (account e ch n here positive behind).stay fun k member => member
  | evict count =>
      refine (account e ch n here positive behind).keep fun k member epoch number => ?_
      rw [← List.take_append_drop count s.skipped, List.mem_append] at member
      rcases member with early | late
      · refine .inr (.inl (List.mem_map.2 ⟨k, early, ?_⟩))
        rw [epoch, number]
      · exact .inr (.inr ⟨k, late, epoch, number⟩)

theorem init_accounted (kdf : Kdf K) (sk : Bytes) (direction : Direction) :
    Accounted ([] : List (Event K)) (init kdf sk direction) := by
  intro e ch n here positive behind
  obtain ⟨cs, found, chain⟩ := Option.bind_eq_some_iff.1 here
  have member := mem_of_findChains found
  simp only [init, List.mem_singleton, Prod.mk.injEq] at member
  rw [member.2, freshChains, Option.some.injEq] at chain
  rw [← chain] at behind
  simp only [UInt64.toNat_zero] at behind
  omega

end Tacenta.Spqr.State
