/-
# Tacenta.Ratchet.Skips -- what a skip refuses, and what it stores

A skip either refuses, by one of two bounds, and leaves the state alone
(`skipMessageKeys_refused_iff`, `skipMessageKeys_error`), or moves the receiving
chain to the number named.  Read as a map (`lookup`), the store it leaves is the
store before with the keys passed written over it (`lookup_skippedTo`).

Near the end of its range the counter saturates in the test of the first bound;
no number is far enough ahead there for the bound to be met.
-/
import Tacenta.Maps
import Tacenta.Ratchet.Invariant

set_option autoImplicit false

namespace Tacenta.Ratchet

variable {K : Type} {kdf : Kdf K}

/-- What is stored under a ratchet key and a number: the store as a map. -/
def lookup (skipped : List (SkippedKey K)) (dh : Arr 32) (n : UInt32) : Option (SkippedKey K) :=
  skipped.find? (SkippedKey.named dh n)

/-- Whether an entry is stored under `dhr` and a number in `[start, upto)`. -/
def SkippedKey.passed (dhr : Arr 32) (start upto : UInt32) (k : SkippedKey K) : Bool :=
  decide (k.dh = dhr ∧ start.toNat ≤ k.n.toNat ∧ k.n.toNat < upto.toNat)

/-- How many stored keys a skip from `start` to `upto` leaves. -/
def surviving (skipped : List (SkippedKey K)) (dhr : Arr 32) (start upto : UInt32) : Nat :=
  skipped.countP fun k => !k.passed dhr start upto

/-- The map `skipped` with the keys of the chain `ck` written over the numbers
`[start, upto)` of `dhr`. -/
def overwritten (kdf : Kdf K) (skipped : List (SkippedKey K)) (dhr : Arr 32) (ck : K)
    (start upto now : UInt32) (dh : Arr 32) (n : UInt32) : Option (SkippedKey K) :=
  if dh = dhr ∧ start.toNat ≤ n.toNat ∧ n.toNat < upto.toNat then
    some { dh := dhr, n := n, storedAt := now
           key := messageKey kdf ck (n.toNat - start.toNat) }
  else lookup skipped dh n

theorem purgeChainRange_eq (skipped : List (SkippedKey K)) (dhr : Arr 32) (start upto : UInt32) :
    purgeChainRange skipped dhr start upto = skipped.filter fun k => !k.passed dhr start upto := by
  refine List.filter_congr fun k _ => ?_
  simp only [SkippedKey.passed, ge_iff_le, UInt32.le_iff_toNat_le, UInt32.lt_iff_toNat_lt,
    Bool.decide_and, Bool.and_assoc]

theorem length_purgeChainRange (skipped : List (SkippedKey K)) (dhr : Arr 32)
    (start upto : UInt32) :
    (purgeChainRange skipped dhr start upto).length = surviving skipped dhr start upto := by
  rw [purgeChainRange_eq, surviving, List.countP_eq_length_filter]

/-- A purge of an empty range drops nothing. -/
theorem surviving_of_le {skipped : List (SkippedKey K)} {dhr : Arr 32} {start upto : UInt32}
    (behind : upto.toNat ≤ start.toNat) : surviving skipped dhr start upto = skipped.length := by
  rw [surviving, List.countP_eq_length]
  intro k _
  have outside : ¬ (k.dh = dhr ∧ start.toNat ≤ k.n.toNat ∧ k.n.toNat < upto.toNat) := by omega
  rw [SkippedKey.passed, decide_eq_false outside]
  rfl

theorem surviving_le (skipped : List (SkippedKey K)) (dhr : Arr 32) (start upto : UInt32) :
    surviving skipped dhr start upto ≤ skipped.length := List.countP_le_length

/-! ## What is refused -/

/-- A skip on an open chain, as one of three cases: too far ahead, too many keys
for the store, or done. -/
theorem skipMessageKeys_eq {s : State K} {ck : K} {dhr : Arr 32} {upto : UInt32}
    (chain : s.ckr = some ck) (peer : s.dhrPub = some dhr) (ahead : s.nr.toNat < upto.toNat) :
    skipMessageKeys kdf s upto =
      if maxSkip.toNat < upto.toNat - s.nr.toNat then (s, .error .tooManySkipped)
      else if maxSkippedStore <
          surviving s.skipped dhr s.nr upto + (upto.toNat - s.nr.toNat) then
        (s, .error .skippedStoreFull)
      else (skippedTo kdf s ck dhr upto, .ok ()) := by
  have notBehind : ¬ upto ≤ s.nr := by
    rw [UInt32.le_iff_toNat_le]
    omega
  have count : (upto - s.nr).toNat = upto.toNat - s.nr.toNat :=
    UInt32.toNat_sub_of_le _ _ (UInt32.le_iff_toNat_le.2 (by omega))
  -- A sum that saturates is above every number there is.
  have far : upto > s.nr.saturatingAdd maxSkip ↔ maxSkip.toNat < upto.toNat - s.nr.toNat := by
    have top := upto.toNat_lt
    rw [gt_iff_lt, UInt32.lt_iff_toNat_lt, UInt32.toNat_saturatingAdd]
    omega
  unfold skipMessageKeys
  simp only [chain, peer, if_neg notBehind, far, count, length_purgeChainRange, gt_iff_lt,
    deriveChain_eq ck (UInt32.not_le.1 notBehind), skippedTo]

theorem skipMessageKeys_behind {s : State K} {upto : UInt32} (behind : upto.toNat ≤ s.nr.toNat) :
    skipMessageKeys kdf s upto = (s, .ok ()) := by
  unfold skipMessageKeys
  split
  · rw [if_pos (UInt32.le_iff_toNat_le.2 behind)]
  · rfl

/-- **When a skip refuses**: the gap passes the first bound, or what survives the
purge and the keys passed are more than the store may hold. -/
theorem skipMessageKeys_refused_iff {s : State K} {ck : K} {dhr : Arr 32} {upto : UInt32}
    (valid : Valid s) (chain : s.ckr = some ck) (peer : s.dhrPub = some dhr) :
    (skipMessageKeys kdf s upto).2 ≠ .ok () ↔
      maxSkip.toNat < upto.toNat - s.nr.toNat ∨
      maxSkippedStore < surviving s.skipped dhr s.nr upto + (upto.toNat - s.nr.toNat) := by
  by_cases ahead : s.nr.toNat < upto.toNat
  · rw [skipMessageKeys_eq chain peer ahead]
    split
    · rename_i far
      simp [far]
    · rename_i near
      split
      · rename_i full
        simp [full]
      · rename_i room
        simp [near, room]
  · -- Nothing is passed, and a valid store fits.
    have bounded := valid.bounded
    rw [skipMessageKeys_behind (by omega), surviving_of_le (by omega)]
    simp only [ne_eq, not_true_eq_false, false_iff, not_or, not_lt]
    omega

/-- A skip finds the store full on an open chain, within the first bound. -/
theorem skipMessageKeys_full {s : State K} {upto : UInt32}
    (full : (skipMessageKeys kdf s upto).2 = .error .skippedStoreFull) :
    ∃ dhr, s.dhrPub = some dhr ∧ upto.toNat - s.nr.toNat ≤ maxSkip.toNat ∧
      maxSkippedStore < surviving s.skipped dhr s.nr upto + (upto.toNat - s.nr.toNat) := by
  by_cases ahead : s.nr.toNat < upto.toNat
  · cases chain : s.ckr with
    | none => simp [skipMessageKeys, chain] at full
    | some ck =>
        cases peer : s.dhrPub with
        | none => simp [skipMessageKeys, chain, peer] at full
        | some dhr =>
            rw [skipMessageKeys_eq chain peer ahead] at full
            split at full
            · simp at full
            · rename_i near
              split at full
              · rename_i over_
                exact ⟨dhr, rfl, not_lt.1 near, over_⟩
              · simp at full
  · rw [skipMessageKeys_behind (by omega)] at full
    simp at full

/-- A receive finds the store full in one of its two skips, with its key not in
the store. -/
theorem receive_full {s : State K} {header : Header} {dhOutRecv dhOutSend : K}
    {newDhsPub : Arr 32}
    (full : (receive kdf s header dhOutRecv dhOutSend newDhsPub).2 = .error .skippedStoreFull) :
    trySkipped s.skipped header = none ∧
      ((skipMessageKeys kdf s header.pn).2 = .error .skippedStoreFull ∧
          s.dhrPub ≠ some header.dh ∨
        ∃ mid, enterChain kdf s header dhOutRecv dhOutSend newDhsPub = (mid, .ok ()) ∧
          (skipMessageKeys kdf mid header.n).2 = .error .skippedStoreFull) := by
  unfold receive at full
  split at full
  · simp at full
  · rename_i absent
    refine ⟨absent, ?_⟩
    split at full
    · rename_i mid e refused
      simp only [Except.error.injEq] at full
      subst full
      by_cases same : s.dhrPub = some header.dh
      · rw [enterChain_same same] at refused
        simp at refused
      · rw [enterChain_other same] at refused
        refine .inl ⟨?_, same⟩
        generalize skipMessageKeys kdf s header.pn = skipped at refused ⊢
        obtain ⟨left, e | done⟩ := skipped
        · exact congrArg Except.error (Except.error.inj (Prod.mk.inj refused).2)
        · simp at refused
    · rename_i mid entered
      refine .inr ⟨mid, entered, ?_⟩
      unfold advanceChain at full
      generalize skipMessageKeys kdf mid header.n = skipped at full ⊢
      obtain ⟨left, e | done⟩ := skipped
      · exact congrArg Except.error (Except.error.inj full)
      · -- Past the skip the refusals are others.
        simp only at full
        split at full
        · simp at full
        · split at full
          · simp at full
          · split at full
            · simp at full
            · simp at full

/-! ## What is stored -/

/-- **The store after a skip**: the map before, overwritten on the range passed. -/
theorem lookup_skippedTo {s : State K} {ck : K} {dhr : Arr 32} {upto : UInt32} (dh : Arr 32)
    (n : UInt32) :
    lookup (skippedTo kdf s ck dhr upto).skipped dh n =
      overwritten kdf s.skipped dhr ck s.nr upto s.events dh n := by
  have top := upto.toNat_lt
  simp only [lookup, skippedTo, purgeChainRange_eq, numberedKeys, List.map_map]
  by_cases inside : dh = dhr ∧ s.nr.toNat ≤ n.toNat ∧ n.toNat < upto.toNat
  · obtain ⟨rfl, above, below⟩ := inside
    rw [overwritten, if_pos ⟨rfl, above, below⟩, find?_replaced_inside]
    · have number : UInt32.ofNat (s.nr.toNat + (n.toNat - s.nr.toNat)) = n := by
        rw [Nat.add_sub_cancel' above, UInt32.ofNat_toNat]
      rw [find?_numbered (i := n.toNat - s.nr.toNat) (by omega)]
      · simp only [Function.comp, number]
      · intro j below
        simp only [Function.comp, SkippedKey.named, true_and, ← UInt32.toNat_inj,
          UInt32.toNat_ofNat', decide_eq_decide]
        omega
    · intro k named
      simp only [SkippedKey.named, decide_eq_true_eq] at named
      rw [SkippedKey.passed, named.1, named.2]
      exact decide_eq_true ⟨rfl, above, below⟩
  · rw [overwritten, if_neg inside, find?_replaced_outside]
    · rfl
    · intro k named
      simp only [SkippedKey.named, decide_eq_true_eq] at named
      rw [SkippedKey.passed, named.1, named.2, decide_eq_false inside]
    · intro k member
      obtain ⟨j, below, rfl⟩ := List.mem_map.1 member
      rw [List.mem_range] at below
      simp only [Function.comp, SkippedKey.named, decide_eq_false_iff_not, ← UInt32.toNat_inj,
        UInt32.toNat_ofNat', not_and]
      intro same number
      exact inside ⟨same.symm, by omega⟩

/-- A skip on the receiving chain `ck` of `dhr`, up to `upto`, does what it is
for. -/
structure SkipsExactly (kdf : Kdf K) (s : State K) (ck : K) (dhr : Arr 32) (upto : UInt32) :
    Prop where
  /-- It refuses by the two bounds, and by nothing else. -/
  refuses : (skipMessageKeys kdf s upto).2 ≠ .ok () ↔
    maxSkip.toNat < upto.toNat - s.nr.toNat ∨
    maxSkippedStore < surviving s.skipped dhr s.nr upto + (upto.toNat - s.nr.toNat)
  /-- A refusal moves nothing. -/
  unmoved : (skipMessageKeys kdf s upto).2 ≠ .ok () → (skipMessageKeys kdf s upto).1 = s
  /-- A success moves the counter and the chain, and nothing but the store besides. -/
  moved : (skipMessageKeys kdf s upto).2 = .ok () → ∃ nr skipped,
    (skipMessageKeys kdf s upto).1 =
      { s with nr := nr, ckr := some (chainKey kdf ck (upto.toNat - s.nr.toNat)),
               skipped := skipped } ∧
    nr.toNat = max s.nr.toNat upto.toNat ∧
    (∀ dh n, lookup skipped dh n = overwritten kdf s.skipped dhr ck s.nr upto s.events dh n) ∧
    (skipped.Pairwise fun a b => ¬ (a.dh = b.dh ∧ a.n = b.n)) ∧
    skipped.length = surviving s.skipped dhr s.nr upto + (upto.toNat - s.nr.toNat)

theorem skipsExactly_of_valid {s : State K} (valid : Valid s) {ck : K} {dhr : Arr 32}
    (chain : s.ckr = some ck) (peer : s.dhrPub = some dhr) (upto : UInt32) :
    SkipsExactly kdf s ck dhr upto := by
  refine ⟨skipMessageKeys_refused_iff valid chain peer, ?_, ?_⟩
  · intro refused
    cases skip : skipMessageKeys kdf s upto with
    | mk left result =>
        cases result with
        | error e => exact skipMessageKeys_error skip
        | ok => simp [skip] at refused
  · intro accepted
    by_cases ahead : s.nr.toNat < upto.toNat
    · rw [skipMessageKeys_eq chain peer ahead] at accepted ⊢
      split at accepted
      · simp at accepted
      · rename_i near
        split at accepted
        · simp at accepted
        · rename_i room
          rw [if_neg near, if_neg room]
          have purged := length_purgeChainRange s.skipped dhr s.nr upto
          have after : Valid (skippedTo kdf s ck dhr upto) :=
            valid.skippedTo chain peer (UInt32.lt_iff_toNat_lt.2 ahead) (by omega)
          refine ⟨upto, (skippedTo kdf s ck dhr upto).skipped, rfl, by omega, ?_, after.distinct,
            ?_⟩
          · exact fun dh n => lookup_skippedTo dh n
          · simp [skippedTo, numberedKeys, purged]
    · have none_ : upto.toNat - s.nr.toNat = 0 := by omega
      rw [skipMessageKeys_behind (by omega), none_, chainKey_zero, ← chain]
      refine ⟨s.nr, s.skipped, rfl, by omega, fun dh n => ?_, valid.distinct, ?_⟩
      · rw [overwritten, if_neg (by omega)]
      · rw [surviving_of_le (by omega), Nat.add_zero]

end Tacenta.Ratchet
