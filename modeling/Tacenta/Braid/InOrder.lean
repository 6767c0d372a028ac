/-
# Tacenta.Braid.InOrder -- an agreement on messages in order

Each message goes out at a stage of its sender, and stages only climb.  On a wire
that keeps the order, the receiver of a message has so far been told of no later
stage (`Conversation.needs`): it has emitted the key of the epoch the message
reports, as its sender knew, and at most that of the epoch after
(`Conversation.receive`).
-/
import Tacenta.Braid.Agreement

set_option autoImplicit false
set_option linter.dupNamespace false

namespace Tacenta.Braid

open Ledger (Extends)

variable {K : Type} {kdf : Kdf K} {ikem : IncKem K} {secret : Bytes} {L L' : Ledger ikem} {x : Bool}

/-! ## The key of an epoch -/

/-- The key both ends emit for an epoch. -/
def Ledger.keyOf (kdf : Kdf K) (L : Ledger ikem) (e : UInt64) : K :=
  if e = 0 then kdf.zero else (L.secrets e).elim kdf.zero fun s => kdfOk kdf s.2.2 e

theorem Ledger.keyOf_of {e : UInt64} {s : Kem.EncapsState × Bytes × K} (positive : e ≠ 0)
    (found : L.secrets e = some s) : L.keyOf kdf e = kdfOk kdf s.2.2 e := by
  rw [keyOf, if_neg positive, found]
  rfl

section Holds

variable {past : List (Event K)} {b : Braid K}

/-- What an end emitted is the epoch's key. -/
theorem Holds.emitted_key (holds : Holds kdf secret x L past b) {o : Output K}
    (emitted : o ∈ past.filterMap Event.output) : o.key = L.keyOf kdf o.keyEpoch := by
  obtain ⟨s, found, key⟩ := holds.outputs o emitted
  rw [key, Ledger.keyOf_of ?_ found]
  have listed : o.keyEpoch.toNat ∈ List.range' 1 (past.filterMap Event.output).length := by
    rw [← holds.along.outputs]
    exact List.mem_map_of_mem emitted
  rw [List.mem_range'_1] at listed
  rintro same
  rw [same] at listed
  simp at listed

/-- The keys an end has emitted stand whatever is added. -/
theorem Holds.keyOf_extends (holds : Holds kdf secret x L past b) {y : Bool} (ext : Extends y L L')
    {e : UInt64} (known : e.toNat ≤ b.state.emitted) : L.keyOf kdf e = L'.keyOf kdf e := by
  by_cases zero : e = 0
  · rw [Ledger.keyOf, Ledger.keyOf, if_pos zero, if_pos zero]
  have positive : 1 ≤ e.toNat := by
    by_contra none_
    exact zero (UInt64.toNat_inj.1 (by rw [UInt64.toNat_zero]; omega))
  have listed : e.toNat ∈ (past.filterMap Event.output).map fun o => o.keyEpoch.toNat := by
    rw [holds.along.outputs, List.mem_range'_1, ← holds.along.emitted holds.agrees.alive]
    omega
  obtain ⟨o, emitted, number⟩ := List.mem_map.1 listed
  obtain ⟨s, found, -⟩ := holds.outputs o emitted
  rw [UInt64.toNat_inj.1 number] at found
  rw [Ledger.keyOf_of zero found, Ledger.keyOf_of zero (ext.secrets found)]

end Holds

/-! ## Stages and what was emitted -/

/-- **A state reached through messages of epoch `e` at most** has emitted no key
past it. -/
theorem emitted_le_of_needs {st : State K} (alive : st ≠ .failed) {e : Nat}
    (needs : st.needs ≤ 5 * e + 4) : st.emitted ≤ e := by
  cases st with
  | failed => exact absurd rfl alive
  | _ =>
      simp only [State.needs] at needs
      simp only [State.emitted]
      omega

theorem stage_le (st : State K) :
    5 * st.epoch.toNat ≤ st.stage ∧ st.stage ≤ 5 * st.epoch.toNat + 4 := by
  have place : st.place ≤ 4 := by cases st <;> simp [State.place]
  unfold State.stage
  omega

/-! ## Both ends -/

/-- Both ends, where the `i`-th message of `x` went out at `stamp x i`, and its
peer has been handed none after the first `passed x`. -/
structure Conversation (kdf : Kdf K) (secret : Bytes) (L : Ledger ikem) (past : Bool → List (Event K))
    (braid : Bool → Braid K) (stamp : Bool → Nat → Nat) (issued passed : Bool → Nat) : Prop where
  holds : ∀ x, Holds kdf secret x L (past x) (braid x)
  ordered : ∀ x i j, i ≤ j → j < issued x → stamp x i ≤ stamp x j
  latest : ∀ x i, i < issued x → stamp x i ≤ (braid x).state.stage
  needs : ∀ x i, passed x ≤ i → i < issued x → (braid !x).state.needs ≤ stamp x i

/-- The `i`-th message of `x`, which reported `epoch`. -/
structure Numbered (kdf : Kdf K) (secret : Bytes) (L : Ledger ikem) (x : Bool) (stamp : Nat → Nat)
    (i : Nat) (msg : Msg) (epoch : UInt64) : Prop where
  carries : L.Carries kdf secret x msg
  stage : msg.stage ≤ stamp i
  reported : 5 * (epoch.toNat + 1) ≤ stamp i ∧ stamp i ≤ 5 * (epoch.toNat + 1) + 4

variable {past : Bool → List (Event K)} {braid : Bool → Braid K} {stamp : Bool → Nat → Nat}
  {issued passed : Bool → Nat} {msg : Msg} {epoch : UInt64} {i : Nat}

theorem Numbered.mono {y : Bool} (numbered : Numbered kdf secret L y (stamp y) i msg epoch)
    (ext : Extends x L L') : Numbered kdf secret L' y (stamp y) i msg epoch :=
  { numbered with carries := numbered.carries.mono ext }

/-- **A send**: the agreement goes on, and its message is the next in order. -/
theorem Conversation.send (conv : Conversation kdf secret L past braid stamp issued passed)
    (honest : ikem.Honest) (x : Bool) (rng : Rng) :
    ∃ L' past', Extends x L L' ∧
      Conversation kdf secret L' past' (Function.update braid x ((braid x).send kdf ikem rng).2.2.2.1)
        (Function.update stamp x (Function.update (stamp x) (issued x)
          ((braid x).send kdf ikem rng).2.2.2.1.state.stage))
        (Function.update issued x (issued x + 1)) passed ∧
      Numbered kdf secret L' x (Function.update (stamp x) (issued x)
        ((braid x).send kdf ikem rng).2.2.2.1.state.stage) (issued x)
        ((braid x).send kdf ikem rng).1 ((braid x).send kdf ikem rng).2.1 ∧
      ∀ o, ((braid x).send kdf ikem rng).2.2.1 = some o → o.key = L'.keyOf kdf o.keyEpoch := by
  have mine := conv.holds x
  obtain ⟨L', ext, holds, carries⟩ := mine.send honest rng
  obtain ⟨L₁, records⟩ := stepSend_records honest mine.role mine.positive mine.agrees mine.freshKeys
    mine.freshSecrets rng
  set answer := (braid x).send kdf ikem rng with hanswer
  have sends : (endOf kdf ikem).send (braid x) rng =
      (answer.1, answer.2.2.2.1, answers answer.2.2.1 answer.2.1) := rfl
  rw [sends] at holds carries
  simp only at holds carries
  have reported : answer.2.1.toNat + 1 = answer.2.2.2.1.state.epoch.toNat := by
    have positive := holds.positive
    have : answer.2.1.toNat = answer.2.2.2.1.state.epoch.toNat - 1 := by
      simp [hanswer, Braid.send, Braid.reported]
    omega
  have lower : answer.2.2.2.1.state.needs ≤ (braid x).state.needs := records.needs
  have stages : (braid x).state.stage ≤ answer.2.2.2.1.state.stage := records.climbs.stage
  have bounds := stage_le answer.2.2.2.1.state
  refine ⟨L', Function.update past x (past x ++ answers answer.2.2.1 answer.2.1), ext,
    ⟨fun y => ?_, fun y i j le inside => ?_, fun y i inside => ?_, fun y i ahead inside => ?_⟩,
    ⟨carries, ?_, ?_⟩, fun o emitted => ?_⟩
  · obtain rfl | rfl := Bool.eq_or_eq_not y x
    · rw [Function.update_self, Function.update_self]
      exact holds
    · rw [Function.update_of_ne (Network.not_ne x), Function.update_of_ne (Network.not_ne x)]
      exact (conv.holds !x).stable (by rw [Bool.not_not]; exact ext)
  · by_cases it : y = x
    · rw [it, Function.update_self] at inside ⊢
      by_cases last : j = issued x
      · rw [last, Function.update_self]
        by_cases same : i = issued x
        · rw [same, Function.update_self]
        · rw [Function.update_of_ne same]
          exact (conv.latest x i (by omega)).trans stages
      · rw [Function.update_of_ne (by omega), Function.update_of_ne (by omega)]
        exact conv.ordered x i j le (by omega)
    · rw [Function.update_of_ne it] at inside ⊢
      exact conv.ordered y i j le inside
  · by_cases it : y = x
    · rw [it, Function.update_self] at inside ⊢
      rw [Function.update_self]
      by_cases same : i = issued x
      · rw [same, Function.update_self]
      · rw [Function.update_of_ne same]
        exact (conv.latest x i (by omega)).trans stages
    · rw [Function.update_of_ne it] at inside ⊢
      rw [Function.update_of_ne it]
      exact conv.latest y i inside
  · obtain rfl | rfl := Bool.eq_or_eq_not y x
    · rw [Function.update_self] at inside ⊢
      rw [Function.update_of_ne (Network.not_ne y)]
      by_cases last : i = issued y
      · -- Its peer has come no further than the sender's stage lets it.
        rw [last, Function.update_self]
        have theirs := (conv.holds !y).needs
        rw [Bool.not_not, mine.stage] at theirs
        exact theirs.trans stages
      · rw [Function.update_of_ne last]
        exact conv.needs y i ahead (by omega)
    · rw [Function.update_of_ne (Network.not_ne x)] at inside ⊢
      rw [Bool.not_not, Function.update_self]
      have before := conv.needs (!x) i ahead inside
      rw [Bool.not_not] at before
      exact lower.trans before
  · rw [Function.update_self, ← holds.stage]
    exact carries.stage
  · rw [Function.update_self]
    omega
  · refine holds.emitted_key ?_
    rw [List.filterMap_append, filterMap_answers, emitted]
    exact List.mem_append_right _ (List.mem_singleton_self _)

/-- **A receive in order**: the agreement goes on, what the message reports has
been emitted, and at most the epoch after it. -/
theorem Conversation.receive (conv : Conversation kdf secret L past braid stamp issued passed)
    (honest : ikem.Honest) (sized : kdf.Sized) {y : Bool}
    (below : (braid y).epoch.toNat + 2 < 2 ^ 64)
    (numbered : Numbered kdf secret L (!y) (stamp !y) i msg epoch) (due : passed (!y) ≤ i)
    (sent : i < issued (!y)) :
    ∃ L' past', Extends y L L' ∧
      Conversation kdf secret L' past' (Function.update braid y ((braid y).receive kdf ikem msg).2.2)
        stamp issued (Function.update passed (!y) (i + 1)) ∧
      (epoch.toNat ≤ ((braid y).receive kdf ikem msg).2.2.state.emitted ∧
        ((braid y).receive kdf ikem msg).2.2.state.emitted ≤ epoch.toNat + 1) ∧
      ∀ o, ((braid y).receive kdf ikem msg).2.1 = some o → o.key = L'.keyOf kdf o.keyEpoch := by
  obtain ⟨L', ext, holds⟩ := (conv.holds y).receive honest sized below numbered.carries
  set answer := (braid y).receive kdf ikem msg with hanswer
  have receives : (endOf kdf ikem).receive (braid y) msg =
      (answer.2.2, answers answer.2.1 answer.1) := rfl
  rw [receives] at holds
  simp only at holds
  have after : answer.2.2.state = (stepReceive kdf ikem msg (braid y).state).2 := by
    rw [hanswer, receive_snd]
  have alive := holds.agrees.alive
  have takes := stepReceive_takes kdf ikem msg (braid y).state
  have reached : answer.2.2.state.needs ≤ max (braid y).state.needs msg.stage := by
    rw [after] at alive ⊢
    exact takes.needs alive
  have mine := conv.needs (!y) i due sent
  rw [Bool.not_not] at mine
  have told : answer.2.2.state.needs ≤ stamp (!y) i := by
    have := numbered.stage
    omega
  obtain ⟨low, high⟩ := numbered.reported
  refine ⟨L', Function.update past y (past y ++ answers answer.2.1 answer.1), ext,
    ⟨fun x => ?_, conv.ordered, fun x j inside => ?_, fun x j ahead inside => ?_⟩, ⟨?_, ?_⟩,
    fun o emitted => ?_⟩
  · obtain rfl | rfl := Bool.eq_or_eq_not x y
    · rw [Function.update_self, Function.update_self]
      exact holds
    · rw [Function.update_of_ne (Network.not_ne y), Function.update_of_ne (Network.not_ne y)]
      exact (conv.holds !y).stable (by rw [Bool.not_not]; exact ext)
  · obtain rfl | rfl := Bool.eq_or_eq_not x y
    · rw [Function.update_self, ← holds.stage]
      have := ext.stage x
      rw [(conv.holds x).stage] at this
      exact (conv.latest x j inside).trans this
    · rw [Function.update_of_ne (Network.not_ne y)]
      exact conv.latest (!y) j inside
  · obtain rfl | rfl := Bool.eq_or_eq_not x y
    · rw [Function.update_of_ne (Network.not_ne x)]
      rw [Function.update_of_ne (Network.not_ne x).symm] at ahead
      exact conv.needs x j ahead inside
    · rw [Function.update_self] at ahead
      rw [Bool.not_not, Function.update_self]
      exact told.trans (conv.ordered (!y) i j (by omega) inside)
  · -- The sender knew when it reported the epoch.
    have theirs := ((conv.holds !y).stable (by rw [Bool.not_not]; exact ext)).needs
    rw [Bool.not_not, holds.stage] at theirs
    have emitted := emitted_of_needs (conv.holds !y).role (by rw [Bool.not_not]; exact holds.role)
      (conv.holds !y).positive theirs
    have stage := conv.latest (!y) i sent
    have bounds := stage_le (braid !y).state
    omega
  · exact emitted_le_of_needs alive (by omega)
  · refine holds.emitted_key ?_
    rw [List.filterMap_append, filterMap_answers, emitted]
    exact List.mem_append_right _ (List.mem_singleton_self _)

/-- Both ends as built, with nothing sent. -/
theorem start_conversation (kdf : Kdf K) (ikem : IncKem K) (secret : Bytes)
    (stamp : Bool → Nat → Nat) :
    Conversation kdf secret (blank kdf ikem secret) (fun _ => []) (start kdf secret) stamp
      (fun _ => 0) (fun _ => 0) where
  holds := start_holds
  ordered _ _ _ _ none_ := absurd none_ (Nat.not_lt_zero _)
  latest _ _ none_ := absurd none_ (Nat.not_lt_zero _)
  needs _ _ _ none_ := absurd none_ (Nat.not_lt_zero _)

end Tacenta.Braid
