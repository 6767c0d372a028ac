/-
# Tacenta.Spqr.Invariant -- what each operation of the sparse ratchet does, and keeps

The chains are looked up by epoch: `findChains_setChains` and
`findChains_clearOldEpochs` say what an update and a retirement do to a lookup.
Over them, one lemma for each operation says what a success found and left, and
`Valid`, the decoder's invariant as a proposition, is kept by each.

`chainFrom` and `messageFrom` are the keys of a chain counted from any of its
keys; `deriveSkipped_eq` says that skipping computes them.
-/
import Tacenta.Spqr.State

set_option autoImplicit false

namespace Tacenta.Spqr

variable {K : Type} {kdf : Kdf K}

/-! ## Chains -/

/-- The chain key `i` messages after the key `ck`, which follows message `n`. -/
def chainFrom (kdf : Kdf K) (ck : K) (n : Nat) : Nat → K
  | 0 => ck
  | i + 1 => (kdfCk kdf (chainFrom kdf ck n i) (UInt64.ofNat (n + i + 1))).1

/-- The key of the `i`-th message after the key `ck`, which follows message `n`. -/
def messageFrom (kdf : Kdf K) (ck : K) (n i : Nat) : K :=
  (kdfCk kdf (chainFrom kdf ck n i) (UInt64.ofNat (n + i + 1))).2

theorem chainFrom_next (ck : K) (n i : Nat) :
    chainFrom kdf (kdfCk kdf ck (UInt64.ofNat (n + 1))).1 (n + 1) i =
      chainFrom kdf ck n (i + 1) := by
  induction i with
  | zero => rfl
  | succ i ih =>
      have number : n + 1 + i + 1 = n + (i + 1) + 1 := by omega
      rw [chainFrom, ih, number]
      rfl

theorem chainFrom_add (ck : K) (n i j : Nat) :
    chainFrom kdf (chainFrom kdf ck n i) (n + i) j = chainFrom kdf ck n (i + j) := by
  induction j with
  | zero => rfl
  | succ j ih => rw [chainFrom, ih, Nat.add_assoc n i j, ← Nat.add_assoc i j 1, chainFrom]

theorem messageFrom_add (ck : K) (n i j : Nat) :
    messageFrom kdf (chainFrom kdf ck n i) (n + i) j = messageFrom kdf ck n (i + j) := by
  rw [messageFrom, chainFrom_add, Nat.add_assoc n i j, messageFrom]

/-- The stored keys of the `count` messages after message `n`. -/
def skippedKeys (kdf : Kdf K) (e : UInt64) (ck : K) (n count : Nat) : List (Skipped K) :=
  (List.range count).map fun i => ⟨e, UInt64.ofNat (n + i + 1), messageFrom kdf ck n i⟩

theorem deriveSkipped_eq (e : UInt64) (ck : K) (num : UInt64) (left : Nat)
    (small : num.toNat + left < 2 ^ 64) :
    State.deriveSkipped kdf e ck num left =
      (chainFrom kdf ck num.toNat left, skippedKeys kdf e ck num.toNat left) := by
  induction left generalizing ck num with
  | zero => rfl
  | succ left ih =>
      have step : num + 1 = UInt64.ofNat (num.toNat + 1) := by
        rw [← UInt64.toNat_inj, UInt64.toNat_add, UInt64.toNat_ofNat']
        rfl
      have stepped : (num + 1).toNat = num.toNat + 1 := by
        rw [step, UInt64.toNat_ofNat']
        omega
      have rest : skippedKeys kdf e ck num.toNat (left + 1) =
          ⟨e, num + 1, (kdfCk kdf ck (num + 1)).2⟩ ::
            skippedKeys kdf e (kdfCk kdf ck (num + 1)).1 (num + 1).toNat left := by
        rw [stepped, step]
        simp only [skippedKeys, List.range_succ_eq_map, List.map_cons, List.map_map]
        refine congrArg₂ List.cons rfl (List.map_congr_left fun i _ => ?_)
        simp only [Function.comp, messageFrom, chainFrom_next, Nat.succ_eq_add_one]
        rw [show num.toNat + (i + 1) + 1 = num.toNat + 1 + i + 1 by omega]
      rw [State.deriveSkipped]
      simp only [ih (kdfCk kdf ck (num + 1)).1 (num + 1) (by omega)]
      rw [rest, stepped, step, chainFrom_next]

namespace State

variable {s s' : State K}

/-! ## Looking up chains -/

theorem mem_of_findChains {e : UInt64} {cs : Chains K} (found : s.findChains e = some cs) :
    (e, cs) ∈ s.chains := by
  obtain ⟨c, here, rfl⟩ := Option.map_eq_some_iff.1 found
  have named : c.1 = e := by simpa using List.find?_some here
  rw [← named]
  exact List.mem_of_find?_eq_some here

@[simp] theorem findChains_setChains_self (e : UInt64) (c : Chains K) :
    (s.setChains e c).findChains e = some c := by
  have none_ : (s.chains.filter fun x => !decide (x.1 = e)).find? (fun c => decide (c.1 = e)) =
      none := by
    simp [List.find?_eq_none]
  simp [findChains, setChains, List.find?_append, none_]

theorem findChains_setChains_of_ne {e e' : UInt64} (other : e' ≠ e) (c : Chains K) :
    (s.setChains e c).findChains e' = s.findChains e' := by
  have kept : (s.chains.filter fun x => !decide (x.1 = e)).find? (fun c => decide (c.1 = e')) =
      s.chains.find? fun c => decide (c.1 = e') := by
    rw [List.find?_filter]
    refine congrArg (fun p => List.find? p s.chains) (funext fun x => ?_)
    by_cases h : x.1 = e'
    · simp [h, other]
    · simp [h]
  simp [findChains, setChains, List.find?_append, kept, other.symm]

theorem findChains_clearOldEpochs (current e : UInt64) :
    (s.clearOldEpochs current).findChains e =
      if kept current e then s.findChains e else none := by
  simp only [findChains, clearOldEpochs, List.find?_filter]
  split
  · rename_i covered
    congr 1
    refine congrArg (fun p => List.find? p s.chains) (funext fun x => ?_)
    by_cases h : x.1 = e
    · simp [h, covered]
    · simp [h]
  · rename_i past
    rw [Option.map_eq_none_iff, List.find?_eq_none]
    intro x _ both
    simp only [decide_eq_true_eq, Bool.decide_and, Bool.and_eq_true] at both
    exact past (both.2 ▸ both.1)

/-! ## What a success of each operation found and left -/

/-- The state after the fold of an output: fresh chains under its epoch, and
what the window has passed retired. -/
def folded (kdf : Kdf K) (s : State K) (out : Output K) : State K :=
  let keys := kdfRk kdf s.rk out.key
  (setChains { s with rk := keys.1, epoch := out.keyEpoch } out.keyEpoch
    (freshChains s.direction keys.2.1 keys.2.2)).clearOldEpochs out.keyEpoch

/-- What `advance` does: it refuses at the ceiling and out of order, and folds
otherwise. -/
theorem advance_eq (out : Output K) :
    s.advance kdf out =
      if 2 ^ 64 - 1 ≤ s.epoch.toNat + 1 then (s, .error .chainExhausted)
      else if out.keyEpoch.toNat ≠ s.epoch.toNat + 1 then (s, .error .epochOutOfOrder)
      else (s.folded kdf out, .ok ()) := by
  unfold advance
  cases climbs : s.epoch.checkedAdd 1 with
  | none =>
      rw [UInt64.checkedAdd_eq_none] at climbs
      simp only [UInt64.toNat_one] at climbs
      rw [if_pos (by omega)]
  | some next =>
      rw [UInt64.checkedAdd_eq_some] at climbs
      simp only [UInt64.toNat_one] at climbs
      have last : next = UInt64.maxValue ↔ 2 ^ 64 - 1 ≤ s.epoch.toNat + 1 := by
        have := next.toNat_lt
        rw [← UInt64.toNat_inj, UInt64.toNat_maxValue]
        omega
      have order : out.keyEpoch ≠ next ↔ out.keyEpoch.toNat ≠ s.epoch.toNat + 1 := by
        rw [Ne, ← UInt64.toNat_inj, climbs]
      simp only [last, order]
      rfl

theorem advance_ok {out : Output K} (advanced : s.advance kdf out = (s', .ok ())) :
    s.epoch.toNat + 1 < 2 ^ 64 - 1 ∧ out.keyEpoch.toNat = s.epoch.toNat + 1 ∧
      s' = s.folded kdf out := by
  rw [advance_eq] at advanced
  split at advanced
  · simp at advanced
  · split at advanced
    · simp at advanced
    · rename_i below order
      simp only [Prod.mk.injEq, and_true] at advanced
      exact ⟨by omega, by omega, advanced.symm⟩

/-- The state after a message key of an epoch's sending chain is taken. -/
theorem sendOn_ok {e n : UInt64} {key : K} (sent : s.sendOn kdf e = (s', .ok (n, key))) :
    ∃ cs ch, s.findChains e = some cs ∧ cs.send = some ch ∧ ch.n.checkedAdd 1 = some n ∧
      key = (kdfCk kdf ch.ck n).2 ∧
      s' = s.setChains e { send := some ⟨(kdfCk kdf ch.ck n).1, n⟩, receive := cs.receive } := by
  unfold sendOn at sent
  split at sent
  · simp at sent
  · rename_i cs found
    split at sent
    · simp at sent
    · rename_i ch hch
      split at sent
      · simp at sent
      · rename_i n' climbs
        simp only [Prod.mk.injEq, Except.ok.injEq] at sent
        obtain ⟨rfl, rfl, rfl⟩ := sent
        exact ⟨cs, ch, found, hch, climbs, rfl, rfl⟩

theorem maybeAdvance_ok {out : Option (Output K)} (advanced : s.maybeAdvance kdf out = (s', .ok ())) :
    (out = none ∧ s' = s) ∨ ∃ o, out = some o ∧ s.advance kdf o = (s', .ok ()) := by
  cases out with
  | none =>
      simp only [maybeAdvance, Prod.mk.injEq, and_true] at advanced
      exact .inl ⟨rfl, advanced.symm⟩
  | some o => exact .inr ⟨o, rfl, advanced⟩

theorem send_ok {e n : UInt64} {out : Option (Output K)} {key : K}
    (sent : s.send kdf e out = (s', .ok (n, key))) :
    ∃ mid, s.maybeAdvance kdf out = (mid, .ok ()) ∧ mid.sendOn kdf e = (s', .ok (n, key)) := by
  unfold send at sent
  split at sent
  · simp at sent
  · rename_i mid advanced
    exact ⟨mid, advanced, sent⟩

/-- The state after the keys of a receiving chain up to `upto` are stored. -/
def skippedTo (kdf : Kdf K) (s : State K) (e : UInt64) (cs : Chains K) (ch : Chain K)
    (upto : UInt64) : State K :=
  setChains
    { s with
      skipped := (s.skipped.filter fun k =>
          !(decide (k.epoch = e) && decide (ch.n < k.n) && decide (k.n ≤ upto))) ++
        skippedKeys kdf e ch.ck ch.n.toNat (upto.toNat - ch.n.toNat) } e
    { send := cs.send,
      receive := some ⟨chainFrom kdf ch.ck ch.n.toNat (upto.toNat - ch.n.toNat), upto⟩ }

theorem skipMessageKeys_ok {e upto : UInt64} (skipped : s.skipMessageKeys kdf e upto = (s', .ok ())) :
    ∃ cs ch, s.findChains e = some cs ∧ cs.receive = some ch ∧
      ((upto ≤ ch.n ∧ s' = s) ∨
        (ch.n < upto ∧ upto.toNat ≤ ch.n.toNat + maxSkip.toNat ∧
          (s.skipped.filter fun k =>
            !(decide (k.epoch = e) && decide (ch.n < k.n) && decide (k.n ≤ upto))).length +
              (upto.toNat - ch.n.toNat) ≤ maxSkippedStore ∧
          s' = s.skippedTo kdf e cs ch upto)) := by
  unfold skipMessageKeys at skipped
  split at skipped
  · simp at skipped
  · rename_i cs found
    split at skipped
    · simp at skipped
    · rename_i ch hch
      refine ⟨cs, ch, found, hch, ?_⟩
      split at skipped
      · rename_i behind
        simp only [Prod.mk.injEq, and_true] at skipped
        exact .inl ⟨behind, skipped.symm⟩
      · rename_i ahead
        rw [UInt64.not_le] at ahead
        have count : (upto - ch.n).toNat = upto.toNat - ch.n.toNat :=
          UInt64.toNat_sub_of_le _ _ (UInt64.le_of_lt ahead)
        simp only [count] at skipped
        split at skipped
        · simp at skipped
        · rename_i near
          rw [gt_iff_lt, UInt64.not_lt, UInt64.le_iff_toNat_le, count] at near
          split at skipped
          · simp at skipped
          · rename_i room
            have top := upto.toNat_lt
            have less := UInt64.lt_iff_toNat_lt.1 ahead
            rw [deriveSkipped_eq _ _ _ _ (by omega), Prod.mk.injEq] at skipped
            exact .inr ⟨ahead, by omega, by omega, skipped.1.symm⟩

theorem receiveOn_ok {e n : UInt64} {key : K} (received : s.receiveOn kdf e n = (s', .ok key)) :
    ∃ cs ch, s.findChains e = some cs ∧ cs.receive = some ch ∧ ch.n.checkedAdd 1 = some n ∧
      key = (kdfCk kdf ch.ck n).2 ∧
      s' = s.setChains e { send := cs.send, receive := some ⟨(kdfCk kdf ch.ck n).1, n⟩ } := by
  unfold receiveOn at received
  split at received
  · simp at received
  · rename_i cs found
    split at received
    · simp at received
    · rename_i ch hch
      split at received
      · simp at received
      · rename_i expected climbs
        split at received
        · simp at received
        · rename_i next
          rw [ne_eq, not_not] at next
          subst next
          simp only [Prod.mk.injEq, Except.ok.injEq] at received
          exact ⟨cs, ch, found, hch, climbs, received.2.symm, received.1.symm⟩

theorem receiveFolded_ok {e n : UInt64} {key : K}
    (received : s.receiveFolded kdf e n = (s', .ok key)) :
    s.trySkipped e n = some (key, s') ∨
    (s.trySkipped e n = none ∧ ∃ mid,
      s.skipMessageKeys kdf e (n.saturatingSub 1) = (mid, .ok ()) ∧
      mid.receiveOn kdf e n = (s', .ok key)) := by
  unfold receiveFolded at received
  split at received
  · rename_i key' left stored
    simp only [Prod.mk.injEq, Except.ok.injEq] at received
    obtain ⟨rfl, rfl⟩ := received
    exact .inl stored
  · rename_i absent
    split at received
    · simp at received
    · rename_i mid skipped
      exact .inr ⟨absent, mid, skipped, received⟩

theorem receive_ok {e n : UInt64} {out : Option (Output K)} {key : K}
    (received : s.receive kdf e out n = (s', .ok key)) :
    ∃ mid, s.maybeAdvance kdf out = (mid, .ok ()) ∧ mid.receiveFolded kdf e n = (s', .ok key) := by
  unfold receive at received
  split at received
  · simp at received
  · rename_i mid advanced
    exact ⟨mid, advanced, received⟩

theorem trySkipped_ok {e n : UInt64} {key : K} (taken : s.trySkipped e n = some (key, s')) :
    ∃ k left, takeFirst (named e n) s.skipped = some (k, left) ∧ k.key = key ∧ k.epoch = e ∧
      k.n = n ∧ s' = { s with skipped := left } := by
  obtain ⟨⟨k, left⟩, found, pair⟩ := Option.map_eq_some_iff.1 taken
  simp only [Prod.mk.injEq] at pair
  have this := (takeFirst_mem found).2
  simp only [named, decide_eq_true_eq] at this
  exact ⟨k, left, found, pair.1, this.1, this.2, pair.2.symm⟩

/-! ## The epoch and the direction -/

/-- The epoch after a fold: one more for an output, which is then the next
epoch's. -/
theorem maybeAdvance_frame {out : Option (Output K)}
    (advanced : s.maybeAdvance kdf out = (s', .ok ())) :
    s'.epoch.toNat = s.epoch.toNat + out.toList.length ∧ s'.direction = s.direction ∧
      ∀ o, out = some o → o.keyEpoch.toNat = s.epoch.toNat + 1 := by
  obtain ⟨rfl, rfl⟩ | ⟨o, rfl, folds⟩ := maybeAdvance_ok advanced
  · exact ⟨rfl, rfl, by simp⟩
  · obtain ⟨-, next, rfl⟩ := advance_ok folds
    exact ⟨next, rfl, fun o' same => by rw [← Option.some.inj same]; exact next⟩

theorem sendOn_frame {e n : UInt64} {key : K} (sent : s.sendOn kdf e = (s', .ok (n, key))) :
    s'.epoch = s.epoch ∧ s'.direction = s.direction := by
  obtain ⟨cs, ch, -, -, -, -, rfl⟩ := sendOn_ok sent
  exact ⟨rfl, rfl⟩

theorem receiveFolded_frame {e n : UInt64} {key : K}
    (received : s.receiveFolded kdf e n = (s', .ok key)) :
    s'.epoch = s.epoch ∧ s'.direction = s.direction := by
  obtain stored | ⟨-, mid, skipped, taken⟩ := receiveFolded_ok received
  · obtain ⟨k, left, -, -, -, -, rfl⟩ := trySkipped_ok stored
    exact ⟨rfl, rfl⟩
  · obtain ⟨cs, ch, -, -, -, -, rfl⟩ := receiveOn_ok taken
    obtain ⟨cs, ch, -, -, ⟨-, rfl⟩ | ⟨-, -, -, rfl⟩⟩ := skipMessageKeys_ok skipped
    · exact ⟨rfl, rfl⟩
    · exact ⟨rfl, rfl⟩

theorem send_frame {e n : UInt64} {out : Option (Output K)} {key : K}
    (sent : s.send kdf e out = (s', .ok (n, key))) :
    s'.epoch.toNat = s.epoch.toNat + out.toList.length ∧ s'.direction = s.direction ∧
      ∀ o, out = some o → o.keyEpoch.toNat = s.epoch.toNat + 1 := by
  obtain ⟨mid, advanced, taken⟩ := send_ok sent
  obtain ⟨epoch, direction⟩ := sendOn_frame taken
  rw [epoch, direction]
  exact maybeAdvance_frame advanced

theorem receive_frame {e n : UInt64} {out : Option (Output K)} {key : K}
    (received : s.receive kdf e out n = (s', .ok key)) :
    s'.epoch.toNat = s.epoch.toNat + out.toList.length ∧ s'.direction = s.direction ∧
      ∀ o, out = some o → o.keyEpoch.toNat = s.epoch.toNat + 1 := by
  obtain ⟨mid, advanced, taken⟩ := receive_ok received
  obtain ⟨epoch, direction⟩ := receiveFolded_frame taken
  rw [epoch, direction]
  exact maybeAdvance_frame advanced

/-! ## The invariant -/

/-- The decoder's invariant. -/
structure Valid (s : State K) : Prop where
  bounded : s.skipped.length ≤ maxSkippedStore
  window : ∀ c ∈ s.chains, c.1 ≤ s.epoch ∧ s.epoch < c.1.saturatingAdd epochsKept
  distinct : s.chains.Pairwise fun a b => a.1 ≠ b.1
  current : ∃ c ∈ s.chains, c.1 = s.epoch
  keyed : ∀ k ∈ s.skipped, ∃ c ∈ s.chains, c.1 = k.epoch
  apart : s.skipped.Pairwise fun a b => ¬ (a.epoch = b.epoch ∧ a.n = b.n)

theorem invariant_iff : s.invariant = true ↔ Valid s := by
  simp only [invariant, Bool.and_eq_true, decide_eq_true_eq, List.all_eq_true, List.any_eq_true]
  constructor
  · rintro ⟨⟨⟨bounded, window, distinct⟩, current⟩, keyed, apart⟩
    exact ⟨bounded, window, distinct, current, keyed, apart⟩
  · rintro ⟨bounded, window, distinct, current, keyed, apart⟩
    exact ⟨⟨⟨bounded, window, distinct⟩, current⟩, keyed, apart⟩

/-- A state's chains are at most those of two epochs. -/
theorem Valid.length_chains_le (valid : Valid s) : s.chains.length ≤ 2 := by
  have nodup : (s.chains.map fun c => c.1.toNat).Nodup := by
    rw [List.Nodup, List.pairwise_map]
    exact valid.distinct.imp fun differ same => differ (UInt64.toNat_inj.1 same)
  have subset : (s.chains.map fun c => c.1.toNat) ⊆ [s.epoch.toNat, s.epoch.toNat - 1] := by
    intro n member
    obtain ⟨c, hc, rfl⟩ := List.mem_map.1 member
    obtain ⟨below, kept⟩ := valid.window c hc
    have two : epochsKept.toNat = 2 := rfl
    rw [UInt64.le_iff_toNat_le] at below
    rw [UInt64.lt_iff_toNat_lt, UInt64.toNat_saturatingAdd, two] at kept
    simp only [List.mem_cons, List.not_mem_nil, or_false]
    omega
  have := (List.subperm_of_subset nodup subset).length_le
  simpa using this

/-- Dropping stored keys keeps the invariant. -/
theorem Valid.of_sublist (valid : Valid s) {left : List (Skipped K)}
    (sub : left.Sublist s.skipped) : Valid { s with skipped := left } :=
  ⟨sub.length_le.trans valid.bounded, valid.window, valid.distinct, valid.current,
    fun k hk => valid.keyed k (sub.subset hk), valid.apart.sublist sub⟩

/-- Replacing the chains of an epoch that has some keeps the invariant. -/
theorem Valid.setChains (valid : Valid s) {e : UInt64} {cs : Chains K}
    (found : s.findChains e = some cs) (c : Chains K) : Valid (s.setChains e c) := by
  have here : (e, cs) ∈ s.chains := mem_of_findChains found
  have still : ∀ e', (∃ x ∈ s.chains, x.1 = e') → ∃ x ∈ (s.setChains e c).chains, x.1 = e' := by
    rintro e' ⟨x, hx, rfl⟩
    by_cases same : x.1 = e
    · exact ⟨(e, c), by simp [State.setChains], same.symm⟩
    · exact ⟨x, by simp [State.setChains, hx, same], rfl⟩
  refine ⟨valid.bounded, ?_, ?_, still _ valid.current, fun k hk => still _ (valid.keyed k hk),
    valid.apart⟩
  · intro x hx
    rcases List.mem_append.1 hx with old | new
    · exact valid.window x (List.mem_filter.1 old).1
    · rw [List.mem_singleton.1 new]
      exact valid.window (e, cs) here
  · refine List.pairwise_append.2 ⟨valid.distinct.filter _, List.pairwise_singleton _ _, ?_⟩
    intro a ha b hb same
    rw [List.mem_singleton.1 hb] at same
    simpa [same] using (List.mem_filter.1 ha).2

theorem kept_self {e : UInt64} (below : e.toNat < 2 ^ 64 - 1) : kept e e = true := by
  have two : epochsKept.toNat = 2 := rfl
  simp only [kept, decide_eq_true_eq, UInt64.lt_iff_toNat_lt, UInt64.toNat_saturatingAdd, two]
  omega

/-- **The fold keeps the invariant.** -/
theorem Valid.folded (valid : Valid s) {out : Output K} (below : s.epoch.toNat + 1 < 2 ^ 64 - 1)
    (order : out.keyEpoch.toNat = s.epoch.toNat + 1) : Valid (s.folded kdf out) := by
  have climbs : s.epoch ≤ out.keyEpoch := by
    rw [UInt64.le_iff_toNat_le]
    omega
  refine ⟨?_, ?_, ?_, ?_, ?_, ?_⟩
  · exact (List.length_filter_le _ _).trans valid.bounded
  · intro x hx
    obtain ⟨member, covered⟩ := List.mem_filter.1 hx
    refine ⟨?_, of_decide_eq_true covered⟩
    rcases List.mem_append.1 member with old | new
    · exact UInt64.le_trans (valid.window x (List.mem_filter.1 old).1).1 climbs
    · rw [List.mem_singleton.1 new]
      exact UInt64.le_refl _
  · refine List.Pairwise.filter _ (List.pairwise_append.2
      ⟨valid.distinct.filter _, List.pairwise_singleton _ _, ?_⟩)
    intro a ha b hb same
    rw [List.mem_singleton.1 hb] at same
    simpa [same] using (List.mem_filter.1 ha).2
  · exact ⟨_, List.mem_filter.2 ⟨List.mem_append_right _ (List.mem_singleton_self _),
      kept_self (by omega)⟩, rfl⟩
  · intro k hk
    obtain ⟨member, covered⟩ := List.mem_filter.1 hk
    obtain ⟨x, hx, named⟩ := valid.keyed k member
    by_cases same : x.1 = out.keyEpoch
    · exact ⟨_, List.mem_filter.2 ⟨List.mem_append_right _ (List.mem_singleton_self _),
        kept_self (by omega)⟩, same.symm.trans named⟩
    · refine ⟨x, List.mem_filter.2 ⟨by simp [State.setChains, hx, same], ?_⟩, named⟩
      rw [named]
      exact covered
  · exact valid.apart.filter _

theorem Valid.advance (valid : Valid s) {out : Output K}
    (advanced : s.advance kdf out = (s', .ok ())) : Valid s' := by
  obtain ⟨below, order, rfl⟩ := advance_ok advanced
  exact valid.folded below order

theorem Valid.maybeAdvance (valid : Valid s) {out : Option (Output K)}
    (advanced : s.maybeAdvance kdf out = (s', .ok ())) : Valid s' := by
  obtain ⟨-, rfl⟩ | ⟨o, -, folded⟩ := maybeAdvance_ok advanced
  · exact valid
  · exact valid.advance folded

theorem skippedKeys_toNat {e : UInt64} {ck : K} {n count : Nat} (small : n + count < 2 ^ 64) :
    (skippedKeys kdf e ck n count).map (fun k => k.n.toNat) = List.range' (n + 1) count := by
  simp only [skippedKeys, List.map_map, List.range'_eq_map_range]
  refine List.map_congr_left fun j hj => ?_
  rw [List.mem_range] at hj
  simp only [Function.comp, UInt64.toNat_ofNat']
  omega

theorem mem_skippedKeys {e : UInt64} {ck : K} {n count : Nat} (small : n + count < 2 ^ 64)
    {k : Skipped K} (member : k ∈ skippedKeys kdf e ck n count) :
    k.epoch = e ∧ n < k.n.toNat ∧ k.n.toNat ≤ n + count := by
  have number := List.mem_map_of_mem (f := fun k : Skipped K => k.n.toNat) member
  rw [skippedKeys_toNat small, List.mem_range'_1] at number
  obtain ⟨i, -, rfl⟩ := List.mem_map.1 member
  exact ⟨rfl, by omega, by omega⟩

/-- Storing the keys passed keeps the invariant. -/
theorem Valid.skippedTo (valid : Valid s) {e upto : UInt64} {cs : Chains K} {ch : Chain K}
    (found : s.findChains e = some cs) (ahead : ch.n < upto)
    (room : (s.skipped.filter fun k =>
      !(decide (k.epoch = e) && decide (ch.n < k.n) && decide (k.n ≤ upto))).length +
        (upto.toNat - ch.n.toNat) ≤ maxSkippedStore) : Valid (s.skippedTo kdf e cs ch upto) := by
  have top := upto.toNat_lt
  rw [UInt64.lt_iff_toNat_lt] at ahead
  have inside : ∀ k ∈ skippedKeys kdf e ch.ck ch.n.toNat (upto.toNat - ch.n.toNat),
      k.epoch = e ∧ ch.n < k.n ∧ k.n ≤ upto := by
    intro k hk
    have := mem_skippedKeys (by omega) hk
    rw [UInt64.lt_iff_toNat_lt, UInt64.le_iff_toNat_le]
    exact ⟨this.1, this.2.1, by omega⟩
  have stored : Valid
      { s with
        skipped := (s.skipped.filter fun k =>
            !(decide (k.epoch = e) && decide (ch.n < k.n) && decide (k.n ≤ upto))) ++
          skippedKeys kdf e ch.ck ch.n.toNat (upto.toNat - ch.n.toNat) } := by
    refine ⟨?_, valid.window, valid.distinct, valid.current, ?_, ?_⟩
    · simpa [skippedKeys] using room
    · intro k hk
      rcases List.mem_append.1 hk with old | new
      · exact valid.keyed k (List.mem_filter.1 old).1
      · exact ⟨(e, cs), mem_of_findChains found, (inside k new).1.symm⟩
    · refine List.pairwise_append.2 ⟨valid.apart.filter _, ?_, ?_⟩
      · have nodup : ((skippedKeys kdf e ch.ck ch.n.toNat (upto.toNat - ch.n.toNat)).map
            fun k => k.n.toNat).Nodup := by
          rw [skippedKeys_toNat (by omega)]
          exact List.nodup_range'
        rw [List.Nodup, List.pairwise_map] at nodup
        exact nodup.imp fun differ same => differ (congrArg UInt64.toNat same.2)
      · rintro a old b new ⟨sameEpoch, sameN⟩
        have survives := (List.mem_filter.1 old).2
        obtain ⟨epoch, above, below⟩ := inside b new
        rw [sameEpoch, sameN] at survives
        simp [epoch, above, below] at survives
  exact stored.setChains (show State.findChains _ e = some cs from found) _

theorem Valid.skipMessageKeys (valid : Valid s) {e upto : UInt64}
    (skipped : s.skipMessageKeys kdf e upto = (s', .ok ())) : Valid s' := by
  obtain ⟨cs, ch, found, -, ⟨-, rfl⟩ | ⟨ahead, -, room, rfl⟩⟩ := skipMessageKeys_ok skipped
  · exact valid
  · exact valid.skippedTo found ahead room

theorem Valid.receiveOn (valid : Valid s) {e n : UInt64} {key : K}
    (received : s.receiveOn kdf e n = (s', .ok key)) : Valid s' := by
  obtain ⟨cs, ch, found, -, -, -, rfl⟩ := receiveOn_ok received
  exact valid.setChains found _

theorem Valid.receiveFolded (valid : Valid s) {e n : UInt64} {key : K}
    (received : s.receiveFolded kdf e n = (s', .ok key)) : Valid s' := by
  obtain stored | ⟨-, mid, skipped, taken⟩ := receiveFolded_ok received
  · obtain ⟨k, left, found, -, -, -, rfl⟩ := trySkipped_ok stored
    exact valid.of_sublist (takeFirst_sublist found)
  · exact (valid.skipMessageKeys skipped).receiveOn taken

/-- **Receiving keeps the invariant.** -/
theorem Valid.receive (valid : Valid s) {e n : UInt64} {out : Option (Output K)} {key : K}
    (received : s.receive kdf e out n = (s', .ok key)) : Valid s' := by
  obtain ⟨mid, advanced, taken⟩ := receive_ok received
  exact (valid.maybeAdvance advanced).receiveFolded taken

/-- **Sending keeps the invariant.** -/
theorem Valid.send (valid : Valid s) {e n : UInt64} {out : Option (Output K)} {key : K}
    (sent : s.send kdf e out = (s', .ok (n, key))) : Valid s' := by
  obtain ⟨mid, advanced, taken⟩ := send_ok sent
  obtain ⟨cs, ch, found, -, -, -, rfl⟩ := sendOn_ok taken
  exact (valid.maybeAdvance advanced).setChains found _

theorem init_valid (kdf : Kdf K) (sk : Bytes) (direction : Direction) :
    Valid (init kdf sk direction) :=
  ⟨by simp [init], by simp [init]; decide, by simp [init], by simp [init], by simp [init],
    by simp [init]⟩

end State

end Tacenta.Spqr
