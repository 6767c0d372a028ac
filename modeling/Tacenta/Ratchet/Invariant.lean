/-
# Tacenta.Ratchet.Invariant -- what each ratchet operation does, and keeps

One lemma for each operation says what a success of it found and left
(`skipMessageKeys_ok`, `enterChain_ok`, `advanceChain_ok`, `receive_ok`); every
fact about the ratchet is derived from these.  `Valid` is the decoder's
invariant as a proposition, and `Valid.send` and `Valid.receive` keep it.

A chain is the iteration of `kdfCk` from its first key: `chainKey` and
`messageKey` name its `i`-th keys, and `deriveChain_eq` says that skipping
computes them.
-/
import Tacenta.Ratchet.State
import Tacenta.Sample

set_option autoImplicit false

namespace Tacenta.Ratchet

variable {K : Type} {kdf : Kdf K}

/-! ## Chains -/

/-- The chain key after `i` messages. -/
def chainKey (kdf : Kdf K) (ck : K) : Nat → K
  | 0 => ck
  | i + 1 => (kdfCk kdf (chainKey kdf ck i)).1

/-- The key of the chain's `i`-th message. -/
def messageKey (kdf : Kdf K) (ck : K) (i : Nat) : K := (kdfCk kdf (chainKey kdf ck i)).2

@[simp] theorem chainKey_zero (ck : K) : chainKey kdf ck 0 = ck := rfl

theorem chainKey_succ (ck : K) (i : Nat) :
    chainKey kdf ck (i + 1) = (kdfCk kdf (chainKey kdf ck i)).1 := rfl

theorem chainKey_next (ck : K) (i : Nat) :
    chainKey kdf (kdfCk kdf ck).1 i = chainKey kdf ck (i + 1) := by
  induction i with
  | zero => rfl
  | succ i ih => rw [chainKey_succ, ih, ← chainKey_succ]

theorem chainKey_add (ck : K) (i j : Nat) :
    chainKey kdf (chainKey kdf ck i) j = chainKey kdf ck (i + j) := by
  induction j with
  | zero => rfl
  | succ j ih => rw [chainKey_succ, ih, ← chainKey_succ, Nat.add_assoc]

theorem messageKey_add (ck : K) (i j : Nat) :
    messageKey kdf (chainKey kdf ck i) j = messageKey kdf ck (i + j) := by
  rw [messageKey, chainKey_add, messageKey]

/-- The numbered keys of `count` messages, from the one numbered `start`. -/
def numberedKeys (kdf : Kdf K) (ck : K) (start count : Nat) : List (UInt32 × K) :=
  (List.range count).map fun j => (UInt32.ofNat (start + j), messageKey kdf ck j)

theorem deriveFrom_eq (startN : UInt32) (ck : K) (i left : Nat)
    (small : startN.toNat + i + left ≤ 2 ^ 32) :
    deriveFrom kdf startN ck i left =
      .ok (chainKey kdf ck left, numberedKeys kdf ck (startN.toNat + i) left) := by
  induction left generalizing ck i with
  | zero => rfl
  | succ left ih =>
      have here : startN.checkedAdd (UInt32.ofNat i) = some (UInt32.ofNat (startN.toNat + i)) := by
        rw [UInt32.checkedAdd_eq_some, UInt32.toNat_ofNat', UInt32.toNat_ofNat']
        omega
      have rest : numberedKeys kdf ck (startN.toNat + i) (left + 1) =
          (UInt32.ofNat (startN.toNat + i), (kdfCk kdf ck).2) ::
            numberedKeys kdf (kdfCk kdf ck).1 (startN.toNat + (i + 1)) left := by
        simp only [numberedKeys, List.range_succ_eq_map, List.map_cons, List.map_map]
        refine congrArg₂ List.cons rfl (List.map_congr_left fun j _ => ?_)
        simp only [Function.comp, messageKey, chainKey_next, Nat.succ_eq_add_one]
        congr 2
        omega
      rw [deriveFrom, here]
      simp only [ih (kdfCk kdf ck).1 (i + 1) (by omega)]
      rw [rest, chainKey_next]

/-- Skipping ahead on a chain never runs out of numbers. -/
theorem deriveChain_eq (ck : K) {start upto : UInt32} (ahead : start < upto) :
    deriveChain kdf ck start (upto - start) =
      .ok (chainKey kdf ck (upto.toNat - start.toNat),
        numberedKeys kdf ck start.toNat (upto.toNat - start.toNat)) := by
  rw [UInt32.lt_iff_toNat_lt] at ahead
  have count : (upto - start).toNat = upto.toNat - start.toNat :=
    UInt32.toNat_sub_of_le _ _ (UInt32.le_iff_toNat_le.2 (by omega))
  have := upto.toNat_lt
  rw [deriveChain, count, deriveFrom_eq _ _ _ _ (by omega), Nat.add_zero]

/-! ## What a success of each operation found and left -/

/-- The state after storing the keys of a receiving chain up to `upto`. -/
def skippedTo (kdf : Kdf K) (s : State K) (ck : K) (dhr : Arr 32) (upto : UInt32) : State K :=
  { s with
    ckr := some (chainKey kdf ck (upto.toNat - s.nr.toNat))
    nr := upto
    skipped := purgeChainRange s.skipped dhr s.nr upto ++
      (numberedKeys kdf ck s.nr.toNat (upto.toNat - s.nr.toNat)).map fun k =>
        { dh := dhr, n := k.1, storedAt := s.events, key := k.2 } }

/-- A skip either stays where it is, or stores the keys of its chain up to
`upto` within the two bounds. -/
theorem skipMessageKeys_ok {s s' : State K} {upto : UInt32}
    (skipped : skipMessageKeys kdf s upto = (s', .ok ())) :
    (s' = s ∧ (s.ckr = none ∨ s.dhrPub = none ∨ upto ≤ s.nr)) ∨
    ∃ ck dhr, s.ckr = some ck ∧ s.dhrPub = some dhr ∧ s.nr < upto ∧
      upto.toNat ≤ s.nr.toNat + maxSkip.toNat ∧
      (purgeChainRange s.skipped dhr s.nr upto).length + (upto.toNat - s.nr.toNat) ≤
        maxSkippedStore ∧
      s' = skippedTo kdf s ck dhr upto := by
  unfold skipMessageKeys at skipped
  split at skipped
  · rename_i ck dhr hck hdhr
    split at skipped
    · rename_i behind
      simp only [Prod.mk.injEq, and_true] at skipped
      exact .inl ⟨skipped.symm, .inr (.inr behind)⟩
    · rename_i ahead
      rw [UInt32.not_le] at ahead
      have count : (upto - s.nr).toNat = upto.toNat - s.nr.toNat :=
        UInt32.toNat_sub_of_le _ _ (UInt32.le_of_lt ahead)
      split at skipped
      · simp at skipped
      · rename_i near
        rw [gt_iff_lt, UInt32.not_lt, UInt32.le_iff_toNat_le, UInt32.toNat_saturatingAdd] at near
        simp only [deriveChain_eq ck ahead, count] at skipped
        split at skipped
        · simp at skipped
        · rename_i room
          simp only [Prod.mk.injEq, and_true] at skipped
          exact .inr ⟨ck, dhr, hck, hdhr, ahead, by omega, by omega, skipped.symm⟩
  · rename_i absent
    simp only [Prod.mk.injEq, and_true] at skipped
    refine .inl ⟨skipped.symm, ?_⟩
    cases hck : s.ckr with
    | none => exact .inl rfl
    | some ck =>
        cases hdhr : s.dhrPub with
        | none => exact .inr (.inl rfl)
        | some dhr => exact absurd hdhr (absent ck dhr hck)

/-- A refused skip moved nothing. -/
theorem skipMessageKeys_error {s s' : State K} {upto : UInt32} {e : RatchetError}
    (refused : skipMessageKeys kdf s upto = (s', .error e)) : s' = s := by
  unfold skipMessageKeys at refused
  split at refused
  · rename_i ck dhr hck hdhr
    split at refused
    · simp at refused
    · rename_i ahead
      split at refused
      · exact (Prod.mk.inj refused).1.symm
      · simp only [deriveChain_eq ck (UInt32.not_le.1 ahead)] at refused
        split at refused
        · exact (Prod.mk.inj refused).1.symm
        · simp at refused
  · simp at refused

theorem enterChain_same {s : State K} {header : Header} (same : s.dhrPub = some header.dh)
    (dhOutRecv dhOutSend : K) (newDhsPub : Arr 32) :
    enterChain kdf s header dhOutRecv dhOutSend newDhsPub = (s, .ok ()) := by
  simp [enterChain, same]

theorem enterChain_other {s : State K} {header : Header} (other : s.dhrPub ≠ some header.dh)
    (dhOutRecv dhOutSend : K) (newDhsPub : Arr 32) :
    enterChain kdf s header dhOutRecv dhOutSend newDhsPub =
      match skipMessageKeys kdf s header.pn with
      | (s, .error e) => (s, .error e)
      | (s, .ok ()) => (dhRatchet kdf s header dhOutRecv dhOutSend newDhsPub, .ok ()) := by
  unfold enterChain
  cases hdhr : s.dhrPub with
  | none => rfl
  | some dhr =>
      have differs : dhr ≠ header.dh := fun h => other (by rw [hdhr, h])
      have entering : decide (dhr ≠ header.dh) = true := decide_eq_true differs
      simp only [entering]
      rfl

/-- Entering a chain: the current one, or a Diffie-Hellman step onto a new one
after the rest of the current one is skipped. -/
theorem enterChain_ok {s s' : State K} {header : Header} {dhOutRecv dhOutSend : K}
    {newDhsPub : Arr 32}
    (entered : enterChain kdf s header dhOutRecv dhOutSend newDhsPub = (s', .ok ())) :
    (s.dhrPub = some header.dh ∧ s' = s) ∨
    (s.dhrPub ≠ some header.dh ∧ ∃ mid, skipMessageKeys kdf s header.pn = (mid, .ok ()) ∧
      s' = dhRatchet kdf mid header dhOutRecv dhOutSend newDhsPub) := by
  by_cases same : s.dhrPub = some header.dh
  · rw [enterChain_same same, Prod.mk.injEq] at entered
    exact .inl ⟨same, entered.1.symm⟩
  · rw [enterChain_other same] at entered
    split at entered
    · simp at entered
    · rename_i mid skipped
      simp only [Prod.mk.injEq, and_true] at entered
      exact .inr ⟨same, mid, skipped, entered.symm⟩

/-- Advancing on a chain: skip up to the number, then take that number's key. -/
theorem advanceChain_ok {s s' : State K} {header : Header} {mk : K}
    (advanced : advanceChain kdf s header = (s', .ok mk)) :
    ∃ mid ck next, skipMessageKeys kdf s header.n = (mid, .ok ()) ∧ mid.nr ≤ header.n ∧
      mid.ckr = some ck ∧ mid.nr.checkedAdd 1 = some next ∧ mk = (kdfCk kdf ck).2 ∧
      s' = ageStore { mid with ckr := some (kdfCk kdf ck).1, nr := next } := by
  unfold advanceChain at advanced
  split at advanced
  · simp at advanced
  · rename_i mid skipped
    split at advanced
    · simp at advanced
    · rename_i reached
      split at advanced
      · simp at advanced
      · rename_i ck hck
        split at advanced
        · simp at advanced
        · rename_i next climbs
          simp only [Prod.mk.injEq, Except.ok.injEq] at advanced
          exact ⟨mid, ck, next, skipped, UInt32.not_lt.1 reached, hck, climbs, advanced.2.symm,
            advanced.1.symm⟩

/-- Receiving: a stored key, or the chain's. -/
theorem receive_ok {s s' : State K} {header : Header} {dhOutRecv dhOutSend : K}
    {newDhsPub : Arr 32} {mk : K}
    (received : receive kdf s header dhOutRecv dhOutSend newDhsPub = (s', .ok mk)) :
    (∃ left, trySkipped s.skipped header = some (mk, left) ∧
      s' = ageStore { s with skipped := left }) ∨
    (trySkipped s.skipped header = none ∧ ∃ mid,
      enterChain kdf s header dhOutRecv dhOutSend newDhsPub = (mid, .ok ()) ∧
      advanceChain kdf mid header = (s', .ok mk)) := by
  unfold receive at received
  split at received
  · rename_i mk' left stored
    simp only [Prod.mk.injEq, Except.ok.injEq] at received
    obtain ⟨rfl, rfl⟩ := received
    exact .inl ⟨left, stored, rfl⟩
  · rename_i absent
    split at received
    · simp at received
    · rename_i mid entered
      exact .inr ⟨absent, mid, entered, received⟩

theorem send_ok {s s' : State K} {header : Header} {mk : K}
    (sent : send kdf s = (s', .ok (header, mk))) :
    ∃ ck next, s.cks = some ck ∧ s.ns.checkedAdd 1 = some next ∧
      header = { dh := s.dhsPub, pn := s.pn, n := s.ns } ∧ mk = (kdfCk kdf ck).2 ∧
      s' = { s with cks := some (kdfCk kdf ck).1, ns := next } := by
  unfold send at sent
  split at sent
  · simp at sent
  · rename_i ck hck
    split at sent
    · simp at sent
    · rename_i next climbs
      simp only [Prod.mk.injEq, Except.ok.injEq] at sent
      exact ⟨ck, next, hck, climbs, sent.2.1.symm, sent.2.2.symm, sent.1.symm⟩

/-! ## The sending key -/

@[simp] theorem ageStore_dhsPub (s : State K) : (ageStore s).dhsPub = s.dhsPub := rfl
@[simp] theorem ageStore_dhrPub (s : State K) : (ageStore s).dhrPub = s.dhrPub := rfl
@[simp] theorem ageStore_cks (s : State K) : (ageStore s).cks = s.cks := rfl
@[simp] theorem ageStore_ckr (s : State K) : (ageStore s).ckr = s.ckr := rfl
@[simp] theorem ageStore_labels (s : State K) : (ageStore s).labels = s.labels := rfl

theorem skipMessageKeys_frame {s s' : State K} {upto : UInt32}
    (skipped : skipMessageKeys kdf s upto = (s', .ok ())) :
    s'.dhsPub = s.dhsPub ∧ s'.dhrPub = s.dhrPub ∧ s'.cks = s.cks ∧ s'.events = s.events ∧
      s'.ckr.isSome = s.ckr.isSome := by
  obtain ⟨rfl, -⟩ | ⟨ck, dhr, hck, hdhr, -, -, -, rfl⟩ := skipMessageKeys_ok skipped
  · exact ⟨rfl, rfl, rfl, rfl, rfl⟩
  · simp [skippedTo, hck]

/-- **A received message leaves the sending key or replaces it by the one
offered**, and a sending key comes with a Diffie-Hellman step. -/
theorem receive_sendingPublic {s s' : State K} {header : Header} {dhOutRecv dhOutSend : K}
    {newDhsPub : Arr 32} {mk : K}
    (received : receive kdf s header dhOutRecv dhOutSend newDhsPub = (s', .ok mk)) :
    s'.dhsPub = s.dhsPub ∨ s'.dhsPub = newDhsPub := by
  obtain ⟨left, -, rfl⟩ | ⟨-, mid, entered, advanced⟩ := receive_ok received
  · exact .inl rfl
  · obtain ⟨ahead, ck, next, skipped, -, -, -, -, rfl⟩ := advanceChain_ok advanced
    have kept := (skipMessageKeys_frame skipped).1
    obtain ⟨-, rfl⟩ | ⟨-, rest, -, rfl⟩ := enterChain_ok entered
    · exact .inl kept
    · exact .inr kept

/-! ## The invariant -/

/-- The decoder's invariant. -/
structure Valid (s : State K) : Prop where
  bounded : s.skipped.length ≤ maxSkippedStore
  clock : s.events.toNat < 2 ^ 32 - 1
  stored : ∀ k ∈ s.skipped, k.storedAt ≤ s.events
  canonical : ∀ k ∈ s.skipped, Curve.isCanonicalX25519 k.dh = true
  distinct : s.skipped.Pairwise fun a b => ¬ (a.dh = b.dh ∧ a.n = b.n)
  chains : s.ckr.isSome = true → s.cks.isSome = true ∧ s.dhrPub.isSome = true
  sending : Curve.isCanonicalX25519 s.dhsPub = true
  receiving : ∀ k, s.dhrPub = some k → Curve.isCanonicalX25519 k = true

theorem invariant_iff {s : State K} : s.invariant = true ↔ Valid s := by
  constructor
  · intro inv
    simp only [State.invariant, Bool.and_eq_true, decide_eq_true_eq, List.all_eq_true] at inv
    obtain ⟨⟨⟨⟨bounded, clock⟩, each, distinct⟩, chains⟩, sending, receiving⟩ := inv
    refine ⟨bounded, clock, fun k hk => (each k hk).1, fun k hk => (each k hk).2, distinct, ?_,
      sending, ?_⟩
    · intro some_
      cases hck : s.ckr with
      | none => simp [hck] at some_
      | some ck => simpa [hck] using chains
    · intro k hk
      simpa [hk] using receiving
  · intro valid
    simp only [State.invariant, Bool.and_eq_true, decide_eq_true_eq, List.all_eq_true]
    refine ⟨⟨⟨⟨valid.bounded, valid.clock⟩, fun k hk => ⟨valid.stored k hk, valid.canonical k hk⟩,
      valid.distinct⟩, ?_⟩, valid.sending, ?_⟩
    · cases hck : s.ckr with
      | none => rfl
      | some ck => simpa using valid.chains (by simp [hck])
    · cases hdhr : s.dhrPub with
      | none => rfl
      | some k => exact valid.receiving k hdhr

/-- Dropping stored keys keeps the invariant. -/
theorem Valid.of_sublist {s : State K} (valid : Valid s) {left : List (SkippedKey K)}
    (sub : left.Sublist s.skipped) : Valid { s with skipped := left } where
  bounded := sub.length_le.trans valid.bounded
  clock := valid.clock
  stored k hk := valid.stored k (sub.subset hk)
  canonical k hk := valid.canonical k (sub.subset hk)
  distinct := valid.distinct.sublist sub
  chains := valid.chains
  sending := valid.sending
  receiving := valid.receiving

theorem eraseIdx_evictOldest_sublist (count : Nat) (l : List (SkippedKey K)) :
    (evictOldest count l).1.Sublist l := by
  induction count generalizing l with
  | zero => exact List.Sublist.refl l
  | succ count ih =>
      cases l with
      | nil => exact List.Sublist.refl _
      | cons k rest => exact (ih _).trans (List.eraseIdx_sublist _ _)

/-- The clock never runs backwards, and stops short of its last reading. -/
theorem ageStore_events {s : State K} (clock : s.events.toNat < 2 ^ 32 - 1) :
    s.events.toNat ≤ (ageStore s).events.toNat ∧ (ageStore s).events.toNat < 2 ^ 32 - 1 := by
  have stepped : (s.events.saturatingAdd 1).toNat = s.events.toNat + 1 := by
    rw [UInt32.toNat_saturatingAdd]
    simp only [UInt32.toNat_one]
    omega
  simp only [ageStore]
  split
  · rename_i last
    rw [last] at stepped
    simp only [UInt32.toNat_ofNat'] at stepped
    simp only [maxEvents, UInt32.reduceToNat]
    omega
  · rename_i notLast
    rw [stepped]
    refine ⟨by omega, ?_⟩
    rw [← UInt32.toNat_inj, stepped] at notLast
    simp only [UInt32.toNat_ofNat'] at notLast
    omega

theorem Valid.ageStore {s : State K} (valid : Valid s) : Valid (ageStore s) := by
  have thinned : Valid { s with skipped := (Ratchet.ageStore s).skipped } :=
    valid.of_sublist List.filter_sublist
  have events := ageStore_events valid.clock
  refine ⟨thinned.bounded, events.2, fun k hk => ?_, thinned.canonical, thinned.distinct,
    valid.chains, valid.sending, valid.receiving⟩
  have := thinned.stored k hk
  rw [UInt32.le_iff_toNat_le] at this ⊢
  exact this.trans events.1

theorem numberedKeys_toNat {ck : K} {start count : Nat} (small : start + count ≤ 2 ^ 32) :
    (numberedKeys kdf ck start count).map (fun k => k.1.toNat) = List.range' start count := by
  simp only [numberedKeys, List.map_map, List.range'_eq_map_range]
  refine List.map_congr_left fun j hj => ?_
  rw [List.mem_range] at hj
  simp only [Function.comp, UInt32.toNat_ofNat']
  omega

/-- The keys of a skip are numbered inside its range. -/
theorem numberedKeys_inside {ck : K} {start upto : UInt32} {k : UInt32 × K}
    (member : k ∈ numberedKeys kdf ck start.toNat (upto.toNat - start.toNat)) :
    start ≤ k.1 ∧ k.1 < upto := by
  have top := upto.toNat_lt
  obtain ⟨j, below, rfl⟩ := List.mem_map.1 member
  rw [List.mem_range] at below
  rw [UInt32.le_iff_toNat_le, UInt32.lt_iff_toNat_lt, UInt32.toNat_ofNat']
  omega

/-- Storing the keys passed leaves a map: they are numbered apart, and what was
stored under their numbers is gone. -/
theorem skippedTo_distinct {s : State K}
    (distinct : s.skipped.Pairwise fun a b => ¬ (a.dh = b.dh ∧ a.n = b.n)) {ck : K} {dhr : Arr 32}
    {upto : UInt32} (ahead : s.nr < upto) :
    (skippedTo kdf s ck dhr upto).skipped.Pairwise fun a b => ¬ (a.dh = b.dh ∧ a.n = b.n) := by
  have top := upto.toNat_lt
  rw [UInt32.lt_iff_toNat_lt] at ahead
  have apart : (numberedKeys kdf ck s.nr.toNat (upto.toNat - s.nr.toNat)).Pairwise
      fun a b => a.1 ≠ b.1 := by
    have nodup : ((numberedKeys kdf ck s.nr.toNat (upto.toNat - s.nr.toNat)).map
        fun k => k.1.toNat).Nodup := by
      rw [numberedKeys_toNat (by omega)]
      exact List.nodup_range'
    rw [List.Nodup, List.pairwise_map] at nodup
    exact nodup.imp fun differ same => differ (congrArg UInt32.toNat same)
  refine List.pairwise_append.2 ⟨distinct.sublist List.filter_sublist, ?_, ?_⟩
  · rw [List.pairwise_map]
    exact apart.imp fun differ same => differ same.2
  · rintro a old b new ⟨sameDh, sameN⟩
    obtain ⟨k, hk, rfl⟩ := List.mem_map.1 new
    have survives := (List.mem_filter.1 old).2
    simp only at sameDh sameN
    rw [sameDh, sameN] at survives
    simp [numberedKeys_inside hk] at survives

/-- Storing the keys passed keeps the invariant. -/
theorem Valid.skippedTo {s : State K} (valid : Valid s) {ck : K} {dhr : Arr 32} {upto : UInt32}
    (hck : s.ckr = some ck) (hdhr : s.dhrPub = some dhr) (ahead : s.nr < upto)
    (room : (purgeChainRange s.skipped dhr s.nr upto).length + (upto.toNat - s.nr.toNat) ≤
      maxSkippedStore) : Valid (skippedTo kdf s ck dhr upto) := by
  have purged : Valid { s with skipped := purgeChainRange s.skipped dhr s.nr upto } :=
    valid.of_sublist List.filter_sublist
  refine ⟨?_, valid.clock, ?_, ?_, skippedTo_distinct valid.distinct ahead, ?_, valid.sending,
    valid.receiving⟩
  · simpa [Ratchet.skippedTo, numberedKeys] using room
  · intro k hk
    rcases List.mem_append.1 hk with old | new
    · exact purged.stored k old
    · obtain ⟨_, _, rfl⟩ := List.mem_map.1 new
      exact UInt32.le_refl _
  · intro k hk
    rcases List.mem_append.1 hk with old | new
    · exact purged.canonical k old
    · obtain ⟨_, _, rfl⟩ := List.mem_map.1 new
      exact valid.receiving dhr hdhr
  · intro _
    have := valid.chains (by simp [hck])
    exact this

/-- A skip keeps the invariant, whether it stores, stays or refuses. -/
theorem Valid.skipMessageKeys (kdf : Kdf K) {s : State K} (valid : Valid s) (upto : UInt32) :
    Valid (skipMessageKeys kdf s upto).1 := by
  cases skip : Ratchet.skipMessageKeys kdf s upto with
  | mk left result =>
      cases result with
      | error e =>
          rw [skipMessageKeys_error skip]
          exact valid
      | ok =>
          obtain ⟨rfl, -⟩ | ⟨ck, dhr, hck, hdhr, ahead, -, room, rfl⟩ := skipMessageKeys_ok skip
          · exact valid
          · exact valid.skippedTo hck hdhr ahead room

/-- The Diffie-Hellman step keeps the invariant on canonical keys. -/
theorem Valid.dhRatchet (kdf : Kdf K) {s : State K} (valid : Valid s) {header : Header}
    {newDhsPub : Arr 32}
    (header_canonical : Curve.isCanonicalX25519 header.dh = true)
    (new_canonical : Curve.isCanonicalX25519 newDhsPub = true) (dhOutRecv dhOutSend : K) :
    Valid (dhRatchet kdf s header dhOutRecv dhOutSend newDhsPub) := by
  refine ⟨valid.bounded, valid.clock, valid.stored, valid.canonical, valid.distinct,
    fun _ => ⟨rfl, rfl⟩, new_canonical, ?_⟩
  intro k here
  rw [← Option.some.inj here]
  exact header_canonical

theorem Valid.enterChain (kdf : Kdf K) {s : State K} (valid : Valid s) {header : Header}
    {newDhsPub : Arr 32}
    (header_canonical : Curve.isCanonicalX25519 header.dh = true)
    (new_canonical : Curve.isCanonicalX25519 newDhsPub = true) (dhOutRecv dhOutSend : K) :
    Valid (enterChain kdf s header dhOutRecv dhOutSend newDhsPub).1 := by
  by_cases same : s.dhrPub = some header.dh
  · rw [enterChain_same same]
    exact valid
  · have after := valid.skipMessageKeys kdf header.pn
    rw [enterChain_other same]
    split
    · rename_i refused
      rw [refused] at after
      exact after
    · rename_i skipped
      rw [skipped] at after
      exact after.dhRatchet kdf header_canonical new_canonical dhOutRecv dhOutSend

theorem Valid.advanceChain (kdf : Kdf K) {s : State K} (valid : Valid s) (header : Header) :
    Valid (advanceChain kdf s header).1 := by
  have after := valid.skipMessageKeys kdf header.n
  unfold Ratchet.advanceChain
  split
  · rename_i refused
    rw [refused] at after
    exact after
  · rename_i mid skipped
    rw [skipped] at after
    -- Past the skip nothing is stored: the refusals leave what the skip left.
    split
    · exact after
    · split
      · exact after
      · rename_i ck hck
        split
        · exact after
        · refine Valid.ageStore ⟨after.bounded, after.clock, after.stored, after.canonical,
            after.distinct, ?_, after.sending, after.receiving⟩
          intro _
          exact after.chains (by rw [hck]; rfl)

/-- **Receiving keeps the invariant** on a canonical header key and a canonical
new sending key, at every exit: also when the skip on the new chain refuses
after the old chain was skipped and the Diffie-Hellman step taken. -/
theorem Valid.receiveLeft (kdf : Kdf K) {s : State K} (valid : Valid s) {header : Header}
    {newDhsPub : Arr 32}
    (header_canonical : Curve.isCanonicalX25519 header.dh = true)
    (new_canonical : Curve.isCanonicalX25519 newDhsPub = true) (dhOutRecv dhOutSend : K) :
    Valid (receive kdf s header dhOutRecv dhOutSend newDhsPub).1 := by
  unfold Ratchet.receive
  split
  · rename_i key left stored
    obtain ⟨found, taken, pair⟩ := Option.map_eq_some_iff.1 stored
    rw [← (Prod.mk.inj pair).2]
    exact (valid.of_sublist (takeFirst_sublist taken)).ageStore
  · have entered :=
      valid.enterChain kdf header_canonical new_canonical dhOutRecv dhOutSend
    split
    · rename_i refused
      rw [refused] at entered
      exact entered
    · rename_i onto
      rw [onto] at entered
      exact entered.advanceChain kdf header

theorem Valid.receive {s s' : State K} {header : Header} {dhOutRecv dhOutSend : K}
    {newDhsPub : Arr 32} {mk : K} (valid : Valid s)
    (header_canonical : Curve.isCanonicalX25519 header.dh = true)
    (new_canonical : Curve.isCanonicalX25519 newDhsPub = true)
    (received : receive kdf s header dhOutRecv dhOutSend newDhsPub = (s', .ok mk)) : Valid s' := by
  have left :=
    valid.receiveLeft kdf header_canonical new_canonical dhOutRecv dhOutSend
  rw [received] at left
  exact left

/-- **Sending keeps the invariant**, and a refused send moves nothing. -/
theorem Valid.sendLeft (kdf : Kdf K) {s : State K} (valid : Valid s) : Valid (send kdf s).1 := by
  unfold Ratchet.send
  split
  · exact valid
  · split
    · exact valid
    · exact ⟨valid.bounded, valid.clock, valid.stored, valid.canonical, valid.distinct,
        fun some_ => ⟨rfl, (valid.chains some_).2⟩, valid.sending, valid.receiving⟩

theorem Valid.send {s s' : State K} {header : Header} {mk : K} (valid : Valid s)
    (sent : send kdf s = (s', .ok (header, mk))) : Valid s' := by
  have left := valid.sendLeft kdf
  rw [sent] at left
  exact left

theorem Valid.evictOldest {s : State K} (valid : Valid s) (count : Nat) :
    Valid (s.evictOldest count).1 :=
  valid.of_sublist (eraseIdx_evictOldest_sublist count s.skipped)

theorem initSender_valid {sk dhOut : K} {ourPub peerPub : Arr 32} {labels : LabelSet}
    (ours : Curve.isCanonicalX25519 ourPub = true) (theirs : Curve.isCanonicalX25519 peerPub = true) :
    Valid (initSender kdf sk ourPub peerPub dhOut labels) :=
  ⟨by simp [initSender], by simp [initSender], by simp [initSender], by simp [initSender],
    by simp [initSender], by simp [initSender], ours, by simpa [initSender] using theirs⟩

theorem initReceiver_valid {sk : K} {ourPub : Arr 32} {labels : LabelSet}
    (ours : Curve.isCanonicalX25519 ourPub = true) : Valid (initReceiver sk ourPub labels) :=
  ⟨by simp [initReceiver], by simp [initReceiver], by simp [initReceiver], by simp [initReceiver],
    by simp [initReceiver], by simp [initReceiver], ours, by simp [initReceiver]⟩

/-! ## The invariant is inductive -/

/-- **The ratchet's invariant is inductive**: both constructors establish it on
canonical keys, every call keeps it on every exit, and with it the store stays
a bounded map on key and number that no reading of the clock is ahead of. -/
theorem ratchet_invariant_inductive (kdf : Kdf K) :
    (∀ (sk dhOut : K) (ourPub peerPub : Arr 32) (labels : LabelSet),
      Curve.isCanonicalX25519 ourPub = true → Curve.isCanonicalX25519 peerPub = true →
        (initSender kdf sk ourPub peerPub dhOut labels).invariant = true) ∧
    (∀ (sk : K) (ourPub : Arr 32) (labels : LabelSet), Curve.isCanonicalX25519 ourPub = true →
      (initReceiver sk ourPub labels).invariant = true) ∧
    ∀ s : State K, s.invariant = true →
      (send kdf s).1.invariant = true ∧
      (∀ (header : Header) (dhOutRecv dhOutSend : K) (newDhsPub : Arr 32),
        Curve.isCanonicalX25519 header.dh = true → Curve.isCanonicalX25519 newDhsPub = true →
          (receive kdf s header dhOutRecv dhOutSend newDhsPub).1.invariant = true) ∧
      (∀ count, (s.evictOldest count).1.invariant = true) ∧
      (s.skipped.Pairwise fun a b => ¬ (a.dh = b.dh ∧ a.n = b.n)) ∧
      s.skipped.length ≤ maxSkippedStore ∧
      (∀ k ∈ s.skipped, k.storedAt ≤ s.events) ∧ s.events.toNat < 2 ^ 32 - 1 := by
  refine ⟨?_, ?_, ?_⟩
  · intro sk dhOut ourPub peerPub labels ours theirs
    exact invariant_iff.2 (initSender_valid ours theirs)
  · intro sk ourPub labels ours
    exact invariant_iff.2 (initReceiver_valid ours)
  · intro s inv
    have valid := invariant_iff.1 inv
    refine ⟨invariant_iff.2 (valid.sendLeft kdf), ?_, ?_, valid.distinct, valid.bounded,
      valid.stored, valid.clock⟩
    · intro header dhOutRecv dhOutSend newDhsPub here fresh
      exact invariant_iff.2 (valid.receiveLeft kdf here fresh dhOutRecv dhOutSend)
    · intro count
      exact invariant_iff.2 (valid.evictOldest count)

/-- A responder handed its peer's fourth message first. -/
def early : State (Arr 32) :=
  (receive Sample.kdf (initReceiver (Vector.replicate 32 1) (Sample.publicKey (Vector.replicate 32 2))
    .tacenta) ⟨Sample.publicKey (Vector.replicate 32 3), 0, 3⟩ (Vector.replicate 32 4)
    (Vector.replicate 32 5) (Sample.publicKey (Vector.replicate 32 6))).1

/-- It stores three keys and keeps the invariant, and so does what it sends next. -/
theorem ratchet_invariant_inductive_early : early.skipped.length = 3 ∧ early.invariant = true ∧
    (send Sample.kdf early).1.invariant = true := by
  obtain ⟨-, receiver, each⟩ := ratchet_invariant_inductive Sample.kdf
  have start := receiver (Vector.replicate 32 1) _ .tacenta
    (Sample.publicKey_canonical (Vector.replicate 32 2))
  have inv : early.invariant = true := (each _ start).2.1 _ _ _ _ (Sample.publicKey_canonical _)
    (Sample.publicKey_canonical _)
  exact ⟨by decide +kernel, inv, (each early inv).1⟩

end Tacenta.Ratchet
