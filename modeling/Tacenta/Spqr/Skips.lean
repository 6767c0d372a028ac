/-
# Tacenta.Spqr.Skips -- what a skip refuses, and what it stores

The sparse ratchet's skip, as `Ratchet.Skips` has the classical one: it refuses
by two bounds and moves nothing then, and otherwise writes the keys passed over
the store, read as a map on epoch and number.

A chain's first message is numbered one and the counter is the last number
produced, so the range stored is above the counter and up to the number named.
-/
import Tacenta.Maps
import Tacenta.Spqr.Moves

set_option autoImplicit false

namespace Tacenta.Spqr

variable {K : Type} {kdf : Kdf K}

/-- What is stored under an epoch and a number: the store as a map. -/
def lookup (skipped : List (Skipped K)) (e n : UInt64) : Option (Skipped K) :=
  skipped.find? (State.named e n)

/-- Whether an entry is stored under epoch `e` and a number in `(start, upto]`. -/
def Skipped.passed (e start upto : UInt64) (k : Skipped K) : Bool :=
  decide (k.epoch = e ∧ start.toNat < k.n.toNat ∧ k.n.toNat ≤ upto.toNat)

/-- How many stored keys a skip from `start` to `upto` leaves. -/
def surviving (skipped : List (Skipped K)) (e start upto : UInt64) : Nat :=
  skipped.countP fun k => !k.passed e start upto

/-- The map `skipped` with the keys of the chain `ch` written over the numbers
`(ch.n, upto]` of epoch `e`. -/
def overwritten (kdf : Kdf K) (skipped : List (Skipped K)) (e : UInt64) (ch : Chain K)
    (upto : UInt64) (e' n : UInt64) : Option (Skipped K) :=
  if e' = e ∧ ch.n.toNat < n.toNat ∧ n.toNat ≤ upto.toNat then
    some { epoch := e, n := n
           key := messageFrom kdf ch.ck ch.n.toNat (n.toNat - ch.n.toNat - 1) }
  else lookup skipped e' n

theorem purge_eq (skipped : List (Skipped K)) (e start upto : UInt64) :
    (skipped.filter fun k => !(decide (k.epoch = e) && decide (start < k.n) && decide (k.n ≤ upto))) =
      skipped.filter fun k => !k.passed e start upto := by
  refine List.filter_congr fun k _ => ?_
  simp only [Skipped.passed, UInt64.le_iff_toNat_le, UInt64.lt_iff_toNat_lt, Bool.decide_and,
    Bool.and_assoc]

theorem length_purge (skipped : List (Skipped K)) (e start upto : UInt64) :
    (skipped.filter fun k => !k.passed e start upto).length = surviving skipped e start upto := by
  rw [surviving, List.countP_eq_length_filter]

theorem surviving_of_le {skipped : List (Skipped K)} {e start upto : UInt64}
    (behind : upto.toNat ≤ start.toNat) : surviving skipped e start upto = skipped.length := by
  rw [surviving, List.countP_eq_length]
  intro k _
  have outside : ¬ (k.epoch = e ∧ start.toNat < k.n.toNat ∧ k.n.toNat ≤ upto.toNat) := by omega
  rw [Skipped.passed, decide_eq_false outside]
  rfl

theorem surviving_le (skipped : List (Skipped K)) (e start upto : UInt64) :
    surviving skipped e start upto ≤ skipped.length := List.countP_le_length

namespace State

/-! ## What is refused -/

/-- A skip on an open chain, as one of three cases: too far ahead, too many keys
for the store, or done. -/
theorem skipMessageKeys_eq {s : State K} {e upto : UInt64} {cs : Chains K} {ch : Chain K}
    (found : s.findChains e = some cs) (chain : cs.receive = some ch)
    (ahead : ch.n.toNat < upto.toNat) :
    s.skipMessageKeys kdf e upto =
      if maxSkip.toNat < upto.toNat - ch.n.toNat then (s, .error .tooManySkipped)
      else if maxSkippedStore <
          surviving s.skipped e ch.n upto + (upto.toNat - ch.n.toNat) then
        (s, .error .skippedStoreFull)
      else (s.skippedTo kdf e cs ch upto, .ok ()) := by
  have notBehind : ¬ upto ≤ ch.n := by
    rw [UInt64.le_iff_toNat_le]
    omega
  have count : (upto - ch.n).toNat = upto.toNat - ch.n.toNat :=
    UInt64.toNat_sub_of_le _ _ (UInt64.le_iff_toNat_le.2 (by omega))
  have top := upto.toNat_lt
  unfold skipMessageKeys
  simp only [found, chain, if_neg notBehind, gt_iff_lt, UInt64.lt_iff_toNat_lt, count,
    deriveSkipped_eq e ch.ck ch.n (upto.toNat - ch.n.toNat) (by omega), skippedTo]
  simp only [← UInt64.lt_iff_toNat_lt, purge_eq, length_purge]

theorem skipMessageKeys_behind {s : State K} {e upto : UInt64} {cs : Chains K} {ch : Chain K}
    (found : s.findChains e = some cs) (chain : cs.receive = some ch)
    (behind : upto.toNat ≤ ch.n.toNat) : s.skipMessageKeys kdf e upto = (s, .ok ()) := by
  unfold skipMessageKeys
  simp only [found, chain]
  rw [if_pos (UInt64.le_iff_toNat_le.2 behind)]

/-- **When a skip refuses**, on a chain that is open. -/
theorem skipMessageKeys_refused_iff {s : State K} {e upto : UInt64} {cs : Chains K}
    {ch : Chain K} (valid : Valid s) (found : s.findChains e = some cs)
    (chain : cs.receive = some ch) :
    (s.skipMessageKeys kdf e upto).2 ≠ .ok () ↔
      maxSkip.toNat < upto.toNat - ch.n.toNat ∨
      maxSkippedStore < surviving s.skipped e ch.n upto + (upto.toNat - ch.n.toNat) := by
  by_cases ahead : ch.n.toNat < upto.toNat
  · rw [skipMessageKeys_eq found chain ahead]
    split
    · rename_i far
      simp [far]
    · rename_i near
      split
      · rename_i full
        simp [full]
      · rename_i room
        simp [near, room]
  · have bounded := valid.bounded
    rw [skipMessageKeys_behind found chain (by omega), surviving_of_le (by omega)]
    simp only [ne_eq, not_true_eq_false, false_iff, not_or, not_lt]
    omega

/-- A skip finds the store full on an open chain, within the first bound. -/
theorem skipMessageKeys_full {s : State K} {e upto : UInt64}
    (full : (s.skipMessageKeys kdf e upto).2 = .error .skippedStoreFull) :
    ∃ cs ch, s.findChains e = some cs ∧ cs.receive = some ch ∧
      upto.toNat - ch.n.toNat ≤ maxSkip.toNat ∧
      maxSkippedStore < surviving s.skipped e ch.n upto + (upto.toNat - ch.n.toNat) := by
  cases found : s.findChains e with
  | none => simp [skipMessageKeys, found] at full
  | some cs =>
      cases chain : cs.receive with
      | none => simp [skipMessageKeys, found, chain] at full
      | some ch =>
          by_cases ahead : ch.n.toNat < upto.toNat
          · rw [skipMessageKeys_eq found chain ahead] at full
            split at full
            · simp at full
            · rename_i near
              split at full
              · rename_i over_
                exact ⟨cs, ch, rfl, chain, not_lt.1 near, over_⟩
              · simp at full
          · rw [skipMessageKeys_behind found chain (by omega)] at full
            simp at full

/-- Only the skip of a receive reports a full store: past the fold, with the key
not in the store. -/
theorem receive_full {s : State K} {e n : UInt64} {output : Option (Output K)}
    (full : (s.receive kdf e output n).2 = .error .skippedStoreFull) :
    ∃ mid, s.maybeAdvance kdf output = (mid, .ok ()) ∧ mid.trySkipped e n = none ∧
      (mid.skipMessageKeys kdf e (n.saturatingSub 1)).2 = .error .skippedStoreFull := by
  unfold receive at full
  split at full
  · rename_i mid err refused
    simp only [Except.error.injEq] at full
    subst full
    cases output with
    | none => simp [maybeAdvance] at refused
    | some o =>
        rw [maybeAdvance, advance_eq] at refused
        split at refused
        · simp at refused
        · split at refused
          · simp at refused
          · simp at refused
  · rename_i mid advanced
    unfold receiveFolded at full
    split at full
    · simp at full
    · rename_i absent
      refine ⟨mid, advanced, absent, ?_⟩
      generalize mid.skipMessageKeys kdf e (n.saturatingSub 1) = skipped at full ⊢
      obtain ⟨left, err | done⟩ := skipped
      · exact congrArg Except.error (Except.error.inj full)
      · simp only at full
        unfold receiveOn at full
        split at full
        · simp at full
        · split at full
          · simp at full
          · split at full
            · simp at full
            · split at full
              · simp at full
              · simp at full

/-! ## What is stored -/

/-- **The store after a skip**: the map before, overwritten on the range passed. -/
theorem lookup_skippedTo {s : State K} {e upto : UInt64} {cs : Chains K} {ch : Chain K}
    (e' n : UInt64) :
    lookup (s.skippedTo kdf e cs ch upto).skipped e' n =
      overwritten kdf s.skipped e ch upto e' n := by
  have top := upto.toNat_lt
  simp only [lookup, skippedTo, State.setChains, purge_eq, skippedKeys]
  by_cases inside : e' = e ∧ ch.n.toNat < n.toNat ∧ n.toNat ≤ upto.toNat
  · obtain ⟨rfl, above, upTo⟩ := inside
    rw [overwritten, if_pos ⟨rfl, above, upTo⟩, find?_replaced_inside]
    · have number : UInt64.ofNat (ch.n.toNat + (n.toNat - ch.n.toNat - 1) + 1) = n := by
        rw [show ch.n.toNat + (n.toNat - ch.n.toNat - 1) + 1 = n.toNat by omega,
          UInt64.ofNat_toNat]
      rw [find?_numbered (i := n.toNat - ch.n.toNat - 1) (by omega)]
      · simp only [number]
      · intro j below
        simp only [named, true_and, ← UInt64.toNat_inj, UInt64.toNat_ofNat', decide_eq_decide]
        omega
    · intro k here
      simp only [named, decide_eq_true_eq] at here
      rw [Skipped.passed, here.1, here.2]
      exact decide_eq_true ⟨rfl, above, upTo⟩
  · rw [overwritten, if_neg inside, find?_replaced_outside]
    · rfl
    · intro k here
      simp only [named, decide_eq_true_eq] at here
      rw [Skipped.passed, here.1, here.2, decide_eq_false inside]
    · intro k member
      obtain ⟨j, below, rfl⟩ := List.mem_map.1 member
      rw [List.mem_range] at below
      simp only [named, decide_eq_false_iff_not, ← UInt64.toNat_inj, UInt64.toNat_ofNat', not_and]
      intro same number
      exact inside ⟨(UInt64.toNat_inj.1 same).symm, by omega⟩

/-- A skip on the receiving chain `ch` of epoch `e`, up to `upto`, does what it
is for. -/
structure SkipsExactly (kdf : Kdf K) (s : State K) (e : UInt64) (cs : Chains K) (ch : Chain K)
    (upto : UInt64) : Prop where
  /-- It refuses by the two bounds, and by nothing else. -/
  refuses : (s.skipMessageKeys kdf e upto).2 ≠ .ok () ↔
    maxSkip.toNat < upto.toNat - ch.n.toNat ∨
    maxSkippedStore < surviving s.skipped e ch.n upto + (upto.toNat - ch.n.toNat)
  /-- A refusal moves nothing. -/
  unmoved : (s.skipMessageKeys kdf e upto).2 ≠ .ok () → (s.skipMessageKeys kdf e upto).1 = s
  /-- A success moves the receiving chain of the epoch and nothing but the store besides. -/
  moved : (s.skipMessageKeys kdf e upto).2 = .ok () → ∃ n chains skipped,
    (s.skipMessageKeys kdf e upto).1 = { s with chains := chains, skipped := skipped } ∧
    n.toNat = max ch.n.toNat upto.toNat ∧
    (s.skipMessageKeys kdf e upto).1.findChains e =
      some { send := cs.send
             receive :=
              some ⟨chainFrom kdf ch.ck ch.n.toNat (upto.toNat - ch.n.toNat), n⟩ } ∧
    (∀ e', e' ≠ e → (s.skipMessageKeys kdf e upto).1.findChains e' = s.findChains e') ∧
    (∀ e' m, lookup skipped e' m = overwritten kdf s.skipped e ch upto e' m) ∧
    (skipped.Pairwise fun a b => ¬ (a.epoch = b.epoch ∧ a.n = b.n)) ∧
    skipped.length = surviving s.skipped e ch.n upto + (upto.toNat - ch.n.toNat)

theorem skipsExactly_of_valid {s : State K} (valid : Valid s) {e : UInt64} {cs : Chains K}
    {ch : Chain K} (found : s.findChains e = some cs) (chain : cs.receive = some ch)
    (upto : UInt64) : SkipsExactly kdf s e cs ch upto := by
  refine ⟨skipMessageKeys_refused_iff valid found chain, ?_, ?_⟩
  · intro refused
    cases skip : s.skipMessageKeys kdf e upto with
    | mk left result =>
        cases result with
        | error err => exact skipMessageKeys_error skip
        | ok => simp [skip] at refused
  · intro accepted
    by_cases ahead : ch.n.toNat < upto.toNat
    · have kept : Valid (s.skipMessageKeys kdf e upto).1 :=
        valid.skipMessageKeys (by rw [← accepted])
      rw [skipMessageKeys_eq found chain ahead] at accepted kept ⊢
      split at accepted
      · simp at accepted
      · rename_i near
        split at accepted
        · simp at accepted
        · rename_i room
          rw [if_neg near, if_neg room] at kept ⊢
          refine ⟨upto, (s.skippedTo kdf e cs ch upto).chains,
            (s.skippedTo kdf e cs ch upto).skipped, rfl, by omega, ?_, ?_, ?_, kept.apart, ?_⟩
          · exact findChains_setChains_self e _
          · exact fun e' other => findChains_setChains_of_ne other _
          · exact fun e' m => lookup_skippedTo e' m
          · simp only [skippedTo, State.setChains, List.length_append, purge_eq, length_purge]
            simp [skippedKeys]
    · have none_ : upto.toNat - ch.n.toNat = 0 := by omega
      rw [skipMessageKeys_behind found chain (by omega), none_]
      refine ⟨ch.n, s.chains, s.skipped, rfl, by omega, ?_, fun _ _ => rfl, fun e' m => ?_,
        valid.apart, ?_⟩
      · rw [found, chainFrom, ← chain]
      · rw [overwritten, if_neg (by omega)]
      · rw [surviving_of_le (by omega), Nat.add_zero]

end State

end Tacenta.Spqr
