/-
# Tacenta.Spqr.History -- the sparse store holds its keys in the order it stored them

The sparse store has no clock: its eviction removes from the front, and takes the
front for the oldest.  `history` runs the calls of a state and records every key
they store, in the order they store it.  Along every run the store is what is
left of that record, in its order (`Filed`), so what stands at its front was
stored first; no name is stored twice, so "first" is about names too.

Uses take keys from the middle, a fold drops those of an epoch, an eviction drops
the front, and a chain that is put back does not touch the store; only a skip
adds, at the back (`Filing`).
-/
import Tacenta.Spqr.Runs
import Tacenta.Spqr.Skips

set_option autoImplicit false

namespace Tacenta.Spqr.State

variable {K : Type} {kdf : Kdf K} {s s' : State K} {past now : List (Skipped K)}

/-! ## What a call stores -/

/-- The keys a skip stores. -/
def skipStores (kdf : Kdf K) (s : State K) (e upto : UInt64) : List (Skipped K) :=
  match (s.skipMessageKeys kdf e upto).2, s.receiveChain e with
  | .ok (), some ch => skippedKeys kdf e ch.ck ch.n.toNat (upto.toNat - ch.n.toNat)
  | _, _ => []

/-- The keys a receive stores past its fold. -/
def receiveStores (kdf : Kdf K) (s : State K) (e n : UInt64) : List (Skipped K) :=
  match s.trySkipped e n with
  | some _ => []
  | none => s.skipStores kdf e (n.saturatingSub 1)

/-- The keys a call stores: those of its skip. -/
def callStores (kdf : Kdf K) (s : State K) : Call K → List (Skipped K)
  | .receive e output n =>
      match s.maybeAdvance kdf output with
      | (_, .error _) => []
      | (s, .ok ()) => s.receiveStores kdf e n
  | _ => []

/-- A state's calls, with the keys they store. -/
def history (kdf : Kdf K) : Machine (State K) (Call K) (Skipped K) :=
  fun s c => ((call kdf s c).1, s.callStores kdf c)

/-! ## The store along a run -/

/-- One change of a state, with the keys it stores. -/
inductive Filing (kdf : Kdf K) (s : State K) : List (Skipped K) → State K → Prop where
  | quiet {events : List (Event K)} {s' : State K} (move : Move kdf (fun _ => True) s events s')
      (less : s'.skipped.Sublist s.skipped) : Filing kdf s [] s'
  | skip {e upto : UInt64} {cs : Chains K} {ch : Chain K} (found : s.findChains e = some cs)
      (chain : cs.receive = some ch) (ahead : ch.n < upto)
      (room : (s.skipped.filter fun k =>
        !(decide (k.epoch = e) && decide (ch.n < k.n) && decide (k.n ≤ upto))).length +
          (upto.toNat - ch.n.toNat) ≤ maxSkippedStore) :
      Filing kdf s (skippedKeys kdf e ch.ck ch.n.toNat (upto.toNat - ch.n.toNat))
        (s.skippedTo kdf e cs ch upto)

/-- The store, and the record of all that was stored. -/
structure Filed (past : List (Skipped K)) (s : State K) : Prop where
  sound : Sound s
  kept : s.skipped.Sublist past
  once : past.Pairwise fun a b => ¬ (a.epoch = b.epoch ∧ a.n = b.n)
  opened : ∀ k ∈ past, k.epoch.toNat ≤ s.epoch.toNat
  behind : ∀ k ∈ past, ∀ ch, s.receiveChain k.epoch = some ch → k.n.toNat ≤ ch.n.toNat

/-- No move takes the epoch back, or the counter of a chain that is still there. -/
theorem Move.climbs {offered : Output K → Prop} {events : List (Event K)}
    (move : Move kdf offered s events s') :
    s.epoch.toNat ≤ s'.epoch.toNat ∧
      ∀ e ch, e.toNat ≤ s.epoch.toNat → s'.receiveChain e = some ch →
        ∃ ch', s.receiveChain e = some ch' ∧ ch'.n.toNat ≤ ch.n.toNat := by
  cases move with
  | fold _ below next =>
      refine ⟨?_, fun e ch old here => ⟨ch, receiveChain_folded_old below next old here, le_rfl⟩⟩
      simp only [folded, clearOldEpochs, State.setChains]
      omega
  | @send e _ cs _ found =>
      refine ⟨le_rfl, fun e' ch _ here => ?_⟩
      rw [receiveChain_setChains] at here
      split at here
      · rename_i same
        exact ⟨ch, by rw [same, receiveChain_of found]; exact here, le_rfl⟩
      · exact ⟨ch, here, le_rfl⟩
  | @skip e upto cs ch found chain ahead =>
      refine ⟨le_rfl, fun e' ch' _ here => ?_⟩
      rw [receiveChain_skippedTo] at here
      split at here
      · rename_i same
        rw [← Option.some.inj here]
        exact ⟨ch, by rw [same, receiveChain_of found, chain],
          (UInt64.lt_iff_toNat_lt.1 ahead).le⟩
      · exact ⟨ch', here, le_rfl⟩
  | @receive e n cs ch found chain climbs =>
      have after := next_toNat climbs
      refine ⟨le_rfl, fun e' ch' _ here => ?_⟩
      rw [receiveChain_setChains] at here
      split at here
      · rename_i same
        rw [← Option.some.inj here]
        exact ⟨ch, by rw [same, receiveChain_of found, chain], by simp only; omega⟩
      · exact ⟨ch', here, le_rfl⟩
  | serve | evict => exact ⟨le_rfl, fun e ch _ here => ⟨ch, here, le_rfl⟩⟩

/-- **Every change keeps the record**: the keys a skip stores are new names, and
it puts them at the back. -/
theorem Filing.filed (filing : Filing kdf s now s') (filed : Filed past s) :
    Filed (past ++ now) s' := by
  cases filing with
  | quiet move less =>
      obtain ⟨epochs, counters⟩ := move.climbs
      rw [List.append_nil]
      refine ⟨move.sound filed.sound, less.trans filed.kept, filed.once, ?_, ?_⟩
      · exact fun k member => (filed.opened k member).trans epochs
      · intro k member ch here
        obtain ⟨ch', before, le⟩ := counters k.epoch ch (filed.opened k member) here
        exact (filed.behind k member ch' before).trans le
  | @skip e upto cs ch found chain ahead room =>
      have move : Move kdf (fun _ => True) s [] (s.skippedTo kdf e cs ch upto) :=
        .skip found chain ahead room
      obtain ⟨-, counters⟩ := move.climbs
      have top := upto.toNat_lt
      have less := UInt64.lt_iff_toNat_lt.1 ahead
      have here : s.receiveChain e = some ch := by rw [receiveChain_of found, chain]
      have fresh : ∀ k ∈ skippedKeys kdf e ch.ck ch.n.toNat (upto.toNat - ch.n.toNat),
          k.epoch = e ∧ ch.n.toNat < k.n.toNat ∧ k.n.toNat ≤ upto.toNat := by
        intro k member
        obtain ⟨epoch, above, upTo⟩ := mem_skippedKeys (by omega) member
        exact ⟨epoch, above, by omega⟩
      refine ⟨move.sound filed.sound, ?_, ?_, ?_, ?_⟩
      · exact (List.filter_sublist.trans filed.kept).append (List.Sublist.refl _)
      · refine List.pairwise_append.2 ⟨filed.once, ?_, ?_⟩
        · have nodup : ((skippedKeys kdf e ch.ck ch.n.toNat (upto.toNat - ch.n.toNat)).map
              fun k => k.n.toNat).Nodup := by
            rw [skippedKeys_toNat (by omega)]
            exact List.nodup_range'
          rw [List.Nodup, List.pairwise_map] at nodup
          exact nodup.imp fun differ same => differ (congrArg UInt64.toNat same.2)
        · rintro a old b new ⟨sameEpoch, sameN⟩
          obtain ⟨epoch, above, -⟩ := fresh b new
          have passed := filed.behind a old ch (by rw [sameEpoch, epoch, here])
          rw [sameN] at passed
          omega
      · intro k member
        rcases List.mem_append.1 member with old | new
        · exact filed.opened k old
        · rw [(fresh k new).1]
          exact filed.sound.valid.epoch_le found
      · intro k member ch' after
        rcases List.mem_append.1 member with old | new
        · obtain ⟨ch₀, before, le⟩ := counters k.epoch ch' (filed.opened k old) after
          exact (filed.behind k old ch₀ before).trans le
        · obtain ⟨epoch, -, upTo⟩ := fresh k new
          rw [receiveChain_skippedTo, if_pos epoch, Option.some.injEq] at after
          rw [← after]
          exact upTo

/-! ## Calls are such changes -/

theorem skipMessageKeys_filing (kdf : Kdf K) (s : State K) (e upto : UInt64) :
    Machine.Steps (Filing kdf) s (s.skipStores kdf e upto) (s.skipMessageKeys kdf e upto).1 := by
  cases ran : s.skipMessageKeys kdf e upto with
  | mk left result =>
      rw [skipStores, ran]
      cases result with
      | error err =>
          rw [skipMessageKeys_error ran]
          exact .refl s
      | ok =>
          obtain ⟨cs, ch, found, chain, ⟨behind, rfl⟩ | ⟨ahead, -, room, rfl⟩⟩ :=
            skipMessageKeys_ok ran
          · have none_ : upto.toNat - ch.n.toNat = 0 :=
              Nat.sub_eq_zero_of_le (UInt64.le_iff_toNat_le.1 behind)
            rw [receiveChain_of found, chain]
            simp only [none_]
            exact .refl left
          · rw [receiveChain_of found, chain]
            exact .one (.skip found chain ahead room)

theorem receiveOn_filing (kdf : Kdf K) (s : State K) (e n : UInt64) :
    Machine.Steps (Filing kdf) s [] (s.receiveOn kdf e n).1 := by
  cases ran : s.receiveOn kdf e n with
  | mk left result =>
      cases result with
      | error err =>
          rw [receiveOn_error ran]
          exact .refl s
      | ok key =>
          obtain ⟨cs, ch, found, chain, climbs, -, rfl⟩ := receiveOn_ok ran
          exact .one (.quiet (.receive found chain climbs) (List.Sublist.refl _))

theorem sendOn_filing (kdf : Kdf K) (s : State K) (e : UInt64) :
    Machine.Steps (Filing kdf) s [] (s.sendOn kdf e).1 := by
  cases ran : s.sendOn kdf e with
  | mk left result =>
      cases result with
      | error err =>
          rw [sendOn_error ran]
          exact .refl s
      | ok taken =>
          obtain ⟨cs, ch, found, chain, climbs, -, rfl⟩ := sendOn_ok ran
          exact .one (.quiet (.send found chain climbs) (List.Sublist.refl _))

theorem receiveFolded_filing (kdf : Kdf K) (s : State K) (e n : UInt64) :
    Machine.Steps (Filing kdf) s (s.receiveStores kdf e n) (s.receiveFolded kdf e n).1 := by
  rw [receiveFolded, receiveStores]
  cases stored : s.trySkipped e n with
  | some answer =>
      obtain ⟨key, left⟩ := answer
      obtain ⟨k, rest, taken, -, -, -, rfl⟩ := trySkipped_ok stored
      exact .one (.quiet (.serve taken) (takeFirst_sublist taken))
  | none =>
      have skips := skipMessageKeys_filing kdf s e (n.saturatingSub 1)
      simp only
      generalize s.skipMessageKeys kdf e (n.saturatingSub 1) = skipped at skips ⊢
      obtain ⟨mid, err | done⟩ := skipped
      · exact skips
      · have both := skips.trans (receiveOn_filing kdf mid e n)
        rw [List.append_nil] at both
        exact both

theorem maybeAdvance_filing (kdf : Kdf K) (s : State K) (output : Option (Output K)) :
    Machine.Steps (Filing kdf) s [] (s.maybeAdvance kdf output).1 := by
  cases output with
  | none => exact .refl s
  | some o =>
      rw [maybeAdvance]
      cases ran : s.advance kdf o with
      | mk left result =>
          cases result with
          | error e =>
              rw [advance_error ran]
              exact .refl s
          | ok =>
              obtain ⟨below, next, rfl⟩ := advance_ok ran
              exact .one (.quiet (.fold trivial below next) List.filter_sublist)

/-- **Every call is a few of these changes**, also when it is refused. -/
theorem history_filing (kdf : Kdf K) (s : State K) (c : Call K) :
    Machine.Steps (Filing kdf) s (history kdf s c).2 (history kdf s c).1 := by
  cases c with
  | send e output =>
      have folds := maybeAdvance_filing kdf s output
      show Machine.Steps (Filing kdf) s [] (call kdf s (.send e output)).1
      rw [call_send, send]
      generalize s.maybeAdvance kdf output = advanced at folds ⊢
      obtain ⟨mid, err | done⟩ := advanced
      · exact folds
      · exact folds.trans (sendOn_filing kdf mid e)
  | receive e output n =>
      have folds := maybeAdvance_filing kdf s output
      show Machine.Steps (Filing kdf) s (s.callStores kdf (.receive e output n))
        (call kdf s (.receive e output n)).1
      rw [call_receive, receive, callStores]
      generalize s.maybeAdvance kdf output = advanced at folds ⊢
      obtain ⟨mid, err | done⟩ := advanced
      · exact folds
      · exact folds.trans (receiveFolded_filing kdf mid e n)
  | evictOldest count => exact .one (.quiet (.evict count) (List.drop_sublist _ _))

/-- **The store is what is left of the record**, along every run from `init`. -/
theorem run_filed (kdf : Kdf K) (sk : Bytes) (direction : Direction) (calls : List (Call K)) :
    Filed ((history kdf).run (init kdf sk direction) calls).2
      ((history kdf).run (init kdf sk direction) calls).1 := by
  have start : Filed ([] : List (Skipped K)) (init kdf sk direction) :=
    ⟨init_sound kdf sk direction, List.nil_sublist _, List.Pairwise.nil, by simp, by simp⟩
  have kept := Machine.run_keeps (history_filing kdf)
    (fun past s now s' filing filed => Filing.filed filing filed) start calls
  rwa [List.nil_append] at kept

/-- A run's record is beside its states: they are those of the calls. -/
theorem history_fst (kdf : Kdf K) (s : State K) (calls : List (Call K)) :
    ((history kdf).run s calls).1 = ((call kdf).run s calls).1 := by
  induction calls generalizing s with
  | nil => rfl
  | cons c rest ih => exact ih (call kdf s c).1

end Tacenta.Spqr.State
