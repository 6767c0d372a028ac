/-
# Tacenta.Spqr.Lineage -- no sending key is derived twice

What one party sends is on the schedule of the secrets it has folded, whichever
those are: a fold extends the schedule and leaves its past alone
(`Move.refed`).  Over an ideal derivation the schedule's keys are distinct, so
two sends share a message key only if they share epoch and number
(`messageKeyOf_inj`).

`Draws` is what a party's sends satisfy: each pair is drawn once, and each key
is the schedule's for its pair.  It speaks of sends alone, so anything else that
happened may be forgotten.
-/
import Tacenta.Spqr.Agreement

set_option autoImplicit false

namespace Tacenta.Spqr

variable {K : Type} {kdf : Kdf K} {sk : Bytes} {secret secret' : UInt64 → K}

/-! ## The schedule's keys are distinct -/

theorem chainFrom_inj (ideal : kdf.Ideal) {ck ck' : K} {n i : Nat}
    (same : chainFrom kdf ck n i = chainFrom kdf ck' n i) : ck = ck' := by
  induction i with
  | zero => exact same
  | succ i ih => exact ih (ideal.bytes_inj (ideal.hkdf_inj (by omega) (by omega) same).1)

/-- A chain's key and a number determine each other's message key. -/
theorem messageFrom_inj (ideal : kdf.Ideal) {ck ck' : K} {i i' : Nat} (hi : i + 1 < 2 ^ 64)
    (hi' : i' + 1 < 2 ^ 64) (same : messageFrom kdf ck 0 i = messageFrom kdf ck' 0 i') :
    ck = ck' ∧ i = i' := by
  obtain ⟨chains, numbers, -⟩ := ideal.hkdf_inj (by omega) (by omega) same
  have number := congrArg UInt64.toNat (be64_inj numbers)
  simp only [UInt64.toNat_ofNat'] at number
  have place : i = i' := by omega
  subst place
  exact ⟨chainFrom_inj ideal (ideal.bytes_inj chains), rfl⟩

/-- The first derivation and every later one are labelled apart. -/
theorem start_ne_root (ideal : kdf.Ideal) {salt ikm salt' ikm' : Bytes} {i : Nat} :
    kdf.hkdf salt ikm (info chainStartLabel) i ≠ kdf.hkdf salt' ikm' (info rootLabel) i :=
  @Kdf.Ideal.hkdf_label K kdf ideal salt ikm _ salt' ikm' _ i 3 (by decide) (by decide) (by decide)

/-- The `i`-th block derived at an epoch: the root key, then both chain keys. -/
def epochBlock (kdf : Kdf K) (sk : Bytes) (secret : UInt64 → K) : Nat → Nat → K
  | 0, i => kdf.hkdf Kdf.zeroSalt sk (info chainStartLabel) i
  | e + 1, i => kdf.hkdf (kdf.bytes (epochKeys kdf sk secret e).1)
      (kdf.bytes (secret (UInt64.ofNat (e + 1)))) (info rootLabel) i

theorem epochKeys_eq (kdf : Kdf K) (sk : Bytes) (secret : UInt64 → K) (e : Nat) :
    epochKeys kdf sk secret e = (epochBlock kdf sk secret e 0, epochBlock kdf sk secret e 1,
      epochBlock kdf sk secret e 2) := by
  cases e <;> rfl

/-- **An epoch's block names its epoch.** -/
theorem epochBlock_inj (ideal : kdf.Ideal) {e e' i : Nat} (hi : i < 255)
    (same : epochBlock kdf sk secret e i = epochBlock kdf sk secret e' i) : e = e' := by
  induction e generalizing e' i with
  | zero =>
      cases e' with
      | zero => rfl
      | succ e' => exact absurd same (start_ne_root ideal)
  | succ e ih =>
      cases e' with
      | zero => exact absurd same.symm (start_ne_root ideal)
      | succ e' =>
          obtain ⟨roots, -, -⟩ := ideal.hkdf_inj hi hi same
          have before := ideal.bytes_inj roots
          rw [epochKeys_eq, epochKeys_eq] at before
          rw [ih (by omega) before]

theorem chainKeyOf_inj (ideal : kdf.Ideal) {d : Direction} {e e' : UInt64}
    (same : chainKeyOf kdf sk secret d e = chainKeyOf kdf sk secret d e') : e = e' := by
  rw [chainKeyOf, chainKeyOf, epochKeys_eq, epochKeys_eq] at same
  cases d with
  | a2b => exact UInt64.toNat_inj.1 (epochBlock_inj ideal (by omega) same)
  | b2a => exact UInt64.toNat_inj.1 (epochBlock_inj ideal (by omega) same)

/-- **No message key twice**: one direction's keys are distinct. -/
theorem messageKeyOf_inj (ideal : kdf.Ideal) {d : Direction} {e n e' n' : UInt64}
    (hn : 1 ≤ n.toNat) (hn' : 1 ≤ n'.toNat)
    (same : messageKeyOf kdf sk secret d e n = messageKeyOf kdf sk secret d e' n') :
    e = e' ∧ n = n' := by
  have top := n.toNat_lt
  have top' := n'.toNat_lt
  obtain ⟨chains, numbers⟩ := messageFrom_inj ideal (by omega) (by omega) same
  exact ⟨chainKeyOf_inj ideal chains, UInt64.toNat_inj.1 (by omega)⟩

/-! ## A fold leaves the schedule's past alone -/

theorem epochKeys_congr {e : Nat} (agree : ∀ i : UInt64, i.toNat ≤ e → secret i = secret' i) :
    epochKeys kdf sk secret e = epochKeys kdf sk secret' e := by
  induction e with
  | zero => rfl
  | succ e ih =>
      have before := ih fun i le => agree i (by omega)
      have newest : secret (UInt64.ofNat (e + 1)) = secret' (UInt64.ofNat (e + 1)) :=
        agree _ (by rw [UInt64.toNat_ofNat']; exact Nat.mod_le _ _)
      rw [epochKeys, before, newest, epochKeys]

theorem chainKeyOf_congr {top : Nat} (agree : ∀ i : UInt64, i.toNat ≤ top → secret i = secret' i)
    {d : Direction} {e : UInt64} (le : e.toNat ≤ top) :
    chainKeyOf kdf sk secret d e = chainKeyOf kdf sk secret' d e := by
  rw [chainKeyOf, chainKeyOf, epochKeys_congr fun i below => agree i (below.trans le)]

theorem messageKeyOf_congr {top : Nat} (agree : ∀ i : UInt64, i.toNat ≤ top → secret i = secret' i)
    {d : Direction} {e n : UInt64} (le : e.toNat ≤ top) :
    messageKeyOf kdf sk secret d e n = messageKeyOf kdf sk secret' d e n := by
  rw [messageKeyOf, messageKeyOf, chainKeyOf_congr agree le]

namespace State

variable {offered : Output K → Prop} {s s' : State K} {past now : List (Event K)}

/-- The epochs of a valid state's chains and stored keys are behind its own. -/
theorem OnSchedule.congr (on : OnSchedule kdf sk secret s) (valid : Valid s)
    (agree : ∀ i : UInt64, i.toNat ≤ s.epoch.toNat → secret i = secret' i) :
    OnSchedule kdf sk secret' s := by
  refine ⟨?_, ?_, ?_, ?_⟩
  · rw [← epochKeys_congr agree]
    exact on.root
  · intro e ch here
    obtain ⟨cs, found, -⟩ := Option.bind_eq_some_iff.1 here
    rw [← chainKeyOf_congr agree (valid.epoch_le found)]
    exact on.sending e ch here
  · intro e ch here
    obtain ⟨cs, found, -⟩ := Option.bind_eq_some_iff.1 here
    rw [← chainKeyOf_congr agree (valid.epoch_le found)]
    exact on.receiving e ch here
  · intro k member
    obtain ⟨c, held, epoch⟩ := valid.keyed k member
    have le := UInt64.le_iff_toNat_le.1 (valid.window c held).1
    rw [epoch] at le
    rw [← messageKeyOf_congr agree le]
    exact on.stored k member

/-- **A move keeps to a schedule** that only a fold's own secret changes. -/
theorem Move.refed (move : Move kdf offered s now s') (secret : UInt64 → K) :
    ∃ secret', (∀ i : UInt64, i.toNat ≤ s.epoch.toNat → secret i = secret' i) ∧
      Move kdf (Fed secret') s now s' := by
  cases move with
  | @fold out _ below next =>
      refine ⟨Function.update secret out.keyEpoch out.key, ?_, .fold ?_ below next⟩
      · intro i le
        refine (Function.update_of_ne ?_ _ _).symm
        rintro rfl
        omega
      · rw [Fed, Function.update_self]
  | send found chain climbs => exact ⟨secret, fun _ _ => rfl, .send found chain climbs⟩
  | skip found chain ahead room => exact ⟨secret, fun _ _ => rfl, .skip found chain ahead room⟩
  | serve taken => exact ⟨secret, fun _ _ => rfl, .serve taken⟩
  | receive found chain climbs => exact ⟨secret, fun _ _ => rfl, .receive found chain climbs⟩
  | evict count => exact ⟨secret, fun _ _ => rfl, .evict count⟩

/-! ## What a party has sent -/

/-- The sends so far: each pair once, under the key of the party's schedule. -/
structure Draws (kdf : Kdf K) (past : List (Event K)) (s : State K) : Prop where
  valid : Valid s
  drawn : Drawn past s
  lineage : ∃ sk secret, OnSchedule kdf sk secret s ∧ ∀ e n key, Event.sent e n key ∈ past →
    1 ≤ n.toNat ∧ key = messageKeyOf kdf sk secret s.direction e n

theorem Move.draws (move : Move kdf offered s now s') (draws : Draws kdf past s) :
    Draws kdf (past ++ now) s' := by
  obtain ⟨sk, secret, on, sends⟩ := draws.lineage
  obtain ⟨secret', agree, fed⟩ := move.refed secret
  obtain ⟨on', direction, scheduled⟩ := fed.onSchedule (on.congr draws.valid agree)
  refine ⟨move.valid draws.valid, move.drawn draws.valid draws.drawn, sk, secret', on', ?_⟩
  intro e n key member
  rw [direction]
  rcases List.mem_append.1 member with old | new
  · obtain ⟨positive, key_eq⟩ := sends e n key old
    have opened := draws.drawn.opened e n (List.mem_filterMap.2 ⟨_, old, rfl⟩)
    rw [key_eq, messageKeyOf_congr agree opened]
    exact ⟨positive, rfl⟩
  · exact scheduled _ new

/-- Whatever is no send may be forgotten. -/
theorem Draws.forget (draws : Draws kdf (past ++ now) s) (silent : ∀ e n key, Event.sent e n key ∉ now) :
    Draws kdf past s := by
  have none_ : now.filterMap Event.sentPair = [] := by
    rw [List.filterMap_eq_nil_iff]
    intro event member
    cases event with
    | sent e n key => exact absurd member (silent e n key)
    | received | evicted => rfl
  have pairs : (past ++ now).filterMap Event.sentPair = past.filterMap Event.sentPair := by
    rw [List.filterMap_append, none_, List.append_nil]
  obtain ⟨valid, ⟨once, opened, behind⟩, sk, secret, on, sends⟩ := draws
  rw [pairs] at once opened behind
  exact ⟨valid, ⟨once, opened, behind⟩, sk, secret, on, fun e n key member =>
    sends e n key (List.mem_append_left _ member)⟩

/-- Losing stored keys changes nothing of it. -/
theorem Draws.of_sublist (draws : Draws kdf past s) {left : List (Skipped K)}
    (sub : left.Sublist s.skipped) : Draws kdf past { s with skipped := left } := by
  obtain ⟨valid, drawn, sk, secret, on, sends⟩ := draws
  exact ⟨valid.of_sublist sub, ⟨drawn.once, drawn.opened, drawn.behind⟩, sk, secret,
    ⟨on.root, on.sending, on.receiving, fun k member => on.stored k (sub.subset member)⟩, sends⟩

/-- A party that starts has sent nothing. -/
theorem init_draws (kdf : Kdf K) (sk : Bytes) (direction : Direction) :
    Draws kdf [] (init kdf sk direction) :=
  ⟨init_valid kdf sk direction, init_drawn kdf sk direction, sk, fun _ => kdf.zero,
    init_onSchedule kdf sk _ direction, by simp⟩

end State

end Tacenta.Spqr
