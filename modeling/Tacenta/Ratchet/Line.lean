/-
# Tacenta.Ratchet.Line -- one party's place on the conversation's line of keys

Two honest parties adopt ratchet keys in turn, and the keys they adopt form one
line: the receiver's first, the sender's first, then one at each
Diffie-Hellman step.  Key `k` of the line gives the root key and the sending
chain of step `k`, and messages on chain `k` come from its holder.

`At line count m s` says that a state is at place `m`: it sends on chain `m`,
receives on chain `m - 1`, and every key it stores is the line's.  A skip, a step
and a taken key each keep it, so a delivery of a genuine header moves the state
along the line or serves the store (`At.receive`): it answers the line's key,
and every number it passes is stored.
-/
import Tacenta.Ratchet.Invariant

set_option autoImplicit false

namespace Tacenta.Ratchet

variable {K : Type}

/-! ## The line -/

/-- The ratchet keys two parties adopt, in order, from one root secret. -/
structure Line (K : Type) where
  kdf : Kdf K
  dh : Dh K
  rootSecret : K
  secret : Nat → Arr 32

namespace Line

/-- The `k`-th public key. -/
def pub (line : Line K) (k : Nat) : Arr 32 := line.dh.publicKey (line.secret k)

/-- What the holders of two neighbouring keys agree on. -/
def shared (line : Line K) (k : Nat) : K :=
  (line.dh.agree (line.secret k) (line.pub (k + 1))).getD line.kdf.zero

/-- The root key after `k` steps. -/
def rootKey (line : Line K) : Nat → K
  | 0 => line.rootSecret
  | k + 1 => (kdfRk line.kdf (line.rootKey k) (line.shared k) .tacenta).1

/-- The first chain key of the chain sent under the `k`-th key. -/
def chain (line : Line K) (k : Nat) : K :=
  (kdfRk line.kdf (line.rootKey (k - 1)) (line.shared (k - 1)) .tacenta).2

/-- The keys up to the `m`-th are distinct. -/
def DistinctTo (line : Line K) (m : Nat) : Prop :=
  ∀ i j, i ≤ m → j ≤ m → line.pub i = line.pub j → i = j

variable {line : Line K}

theorem DistinctTo.mono {m m' : Nat} (distinct : line.DistinctTo m) (le : m' ≤ m) :
    line.DistinctTo m' :=
  fun i j hi hj => distinct i j (hi.trans le) (hj.trans le)

theorem agree_next (agrees : line.dh.Agrees) (k : Nat) :
    line.dh.agree (line.secret k) (line.pub (k + 1)) = some (line.shared k) := by
  obtain ⟨shared, agreed⟩ := agrees.contributory (line.secret k) (line.secret (k + 1))
  rw [← pub] at agreed
  rw [Line.shared, agreed, Option.getD_some]

theorem agree_before (agrees : line.dh.Agrees) (k : Nat) :
    line.dh.agree (line.secret (k + 1)) (line.pub k) = some (line.shared k) := by
  rw [pub, agrees.symmetric]
  exact agree_next agrees k

end Line

theorem kdfRk_labels (kdf : Kdf K) (rk dhOut : K) (labels : LabelSet) :
    kdfRk kdf rk dhOut labels = kdfRk kdf rk dhOut .tacenta := by
  cases labels
  rfl

/-! ## A party at a place -/

/-- The numbers of chain `j` a party at place `m` has gone past. -/
def Passed (count : Nat → Nat) (m : Nat) (s : State K) (j n : Nat) : Prop :=
  1 ≤ j ∧ j < m ∧ j % 2 ≠ m % 2 ∧ n < if j + 1 = m then s.nr.toNat else count j

/-- A party at place `m`, where `count k` messages have been sent on chain `k`. -/
structure At (line : Line K) (count : Nat → Nat) (m : Nat) (s : State K) : Prop where
  own : s.dhsPub = line.pub m
  alone : m = 0 → s.dhrPub = none ∧ s.cks = none
  peer : 1 ≤ m → s.dhrPub = some (line.pub (m - 1)) ∧
    s.cks = some (chainKey line.kdf (line.chain m) s.ns.toNat)
  unopened : m ≤ 1 → s.ckr = none ∧ s.nr.toNat = 0
  opened : 2 ≤ m → s.ckr = some (chainKey line.kdf (line.chain (m - 1)) s.nr.toNat) ∧
    s.nr.toNat ≤ count (m - 1)
  root : s.rk = line.rootKey m
  sent : s.ns.toNat = count m
  before : s.pn.toNat = count (m - 2)
  stored : ∀ k ∈ s.skipped, ∃ j, Passed count m s j k.n.toNat ∧ k.dh = line.pub j ∧
    k.key = messageKey line.kdf (line.chain j) k.n.toNat

/-- A header and key of chain `j`, as its holder's `send` made them. -/
structure Genuine (line : Line K) (count : Nat → Nat) (j : Nat) (header : Header) (key : K) :
    Prop where
  positive : 1 ≤ j
  dh : header.dh = line.pub j
  before : header.pn.toNat = count (j - 2)
  sent : header.n.toNat < count j
  last : header.n.toNat + 1 < 2 ^ 32
  key_eq : key = messageKey line.kdf (line.chain j) header.n.toNat

/-- The skipped key has outlived its age at the reading `now`. -/
def SkippedKey.aged (now : UInt32) (k : SkippedKey K) : Bool :=
  decide (now.saturatingSub k.storedAt ≥ maxSkippedAge)

variable {line : Line K} {count : Nat → Nat} {m : Nat} {s s' mid : State K}

theorem At.initSender (agrees : line.dh.Agrees) {dhOut : K} {labels : LabelSet}
    (agreed : line.dh.agree (line.secret 1) (line.pub 0) = some dhOut) (none_ : ∀ k, count k = 0) :
    At line count 1
      (initSender line.kdf line.rootSecret (line.pub 1) (line.pub 0) dhOut labels) := by
  rw [Line.agree_before agrees, Option.some.injEq] at agreed
  subst agreed
  refine ⟨rfl, by omega, ?_, ?_, by omega, ?_, ?_, ?_, by simp [Ratchet.initSender]⟩
  · intro _
    exact ⟨rfl, by rw [Ratchet.initSender, kdfRk_labels]; rfl⟩
  · intro _
    exact ⟨rfl, rfl⟩
  · rw [Ratchet.initSender, kdfRk_labels]
    rfl
  · rw [none_]
    rfl
  · rw [none_]
    rfl

theorem At.initReceiver {labels : LabelSet} (none_ : ∀ k, count k = 0) :
    At line count 0 (initReceiver line.rootSecret (line.pub 0) labels) := by
  refine ⟨rfl, fun _ => ⟨rfl, rfl⟩, by omega, fun _ => ⟨rfl, rfl⟩, by omega, rfl, ?_, ?_,
    by simp [Ratchet.initReceiver]⟩
  · rw [none_]
    rfl
  · rw [none_]
    rfl

/-- Dropping stored keys keeps the place. -/
theorem At.of_sublist (here : At line count m s) {left : List (SkippedKey K)}
    (sub : left.Sublist s.skipped) : At line count m { s with skipped := left } :=
  ⟨here.own, here.alone, here.peer, here.unopened, here.opened, here.root, here.sent, here.before,
    fun k member => here.stored k (sub.subset member)⟩

theorem At.ageStore (here : At line count m s) : At line count m (ageStore s) := by
  have thinned : At line count m { s with skipped := (Ratchet.ageStore s).skipped } :=
    here.of_sublist List.filter_sublist
  exact ⟨thinned.own, thinned.alone, thinned.peer, thinned.unopened, thinned.opened, thinned.root,
    thinned.sent, thinned.before, thinned.stored⟩

/-- What one more message on another chain leaves of a place. -/
theorem At.grow {count' : Nat → Nat} (here : At line count m s)
    (more : ∀ k, count k ≤ count' k) (own : count' m = count m)
    (before : count' (m - 2) = count (m - 2))
    (left : ∀ j, j + 1 < m → j % 2 ≠ m % 2 → count' j = count j) : At line count' m s := by
  refine ⟨here.own, here.alone, here.peer, here.unopened, ?_, here.root, by rw [own, here.sent],
    by rw [before, here.before], ?_⟩
  · intro open_
    exact ⟨(here.opened open_).1, (here.opened open_).2.trans (more _)⟩
  · intro k member
    obtain ⟨j, ⟨positive, below, parity, behind⟩, rest⟩ := here.stored k member
    refine ⟨j, ⟨positive, below, parity, ?_⟩, rest⟩
    by_cases current : j + 1 = m
    · rw [if_pos current] at behind ⊢
      exact behind
    · rw [if_neg current] at behind ⊢
      rw [left j (by omega) parity]
      exact behind

/-! ## Sending -/

/-- **Sending** draws the next key of the party's own chain. -/
theorem At.send (here : At line count m s) {header : Header} {key : K}
    (sent : send line.kdf s = (s', .ok (header, key))) :
    1 ≤ m ∧ At line (Function.update count m (count m + 1)) m s' ∧
      Genuine line (Function.update count m (count m + 1)) m header key := by
  obtain ⟨ck, next, hck, climbs, rfl, rfl, rfl⟩ := send_ok sent
  have positive : 1 ≤ m := by
    by_contra zero
    rw [(here.alone (by omega)).2] at hck
    simp at hck
  obtain ⟨peer, sending⟩ := here.peer positive
  rw [sending, Option.some.injEq] at hck
  subst hck
  rw [UInt32.checkedAdd_eq_some, UInt32.toNat_one] at climbs
  have before : Function.update count m (count m + 1) (m - 2) = count (m - 2) :=
    Function.update_of_ne (by omega) _ _
  refine ⟨positive, ⟨here.own, by omega, ?_, here.unopened, ?_, here.root, ?_, ?_, ?_⟩,
    ⟨positive, here.own, ?_, ?_, ?_, ?_⟩⟩
  · intro _
    refine ⟨peer, ?_⟩
    simp only [climbs]
    rfl
  · intro open_
    obtain ⟨chain, reach⟩ := here.opened open_
    refine ⟨chain, ?_⟩
    rw [Function.update_of_ne (by omega)]
    exact reach
  · rw [Function.update_self, climbs, here.sent]
  · rw [before]
    exact here.before
  · intro k member
    obtain ⟨j, ⟨first, below, parity, behind⟩, rest⟩ := here.stored k member
    refine ⟨j, ⟨first, below, parity, ?_⟩, rest⟩
    rw [Function.update_of_ne (by omega)]
    exact behind
  · rw [before]
    exact here.before
  · rw [Function.update_self]
    exact here.sent ▸ Nat.lt_succ_self _
  · have := next.toNat_lt
    simp only
    omega
  · rfl

/-! ## Skipping -/

/-- What a skip up to `upto` does to a party that receives on chain `m - 1`. -/
structure Skips (line : Line K) (m : Nat) (s : State K) (upto : UInt32) (mid : State K) : Prop where
  nr : mid.nr.toNat = max s.nr.toNat upto.toNat
  events : mid.events = s.events
  kept : ∀ k ∈ s.skipped, k ∈ mid.skipped
  covered : ∀ n, s.nr.toNat ≤ n → n < upto.toNat →
    ∃ k ∈ mid.skipped, k.dh = line.pub (m - 1) ∧ k.n.toNat = n
  fresh : ∀ k ∈ mid.skipped, k ∈ s.skipped ∨ k.storedAt = s.events

/-- Nothing is stored under the numbers ahead of the current chain. -/
theorem At.purge (here : At line count m s) (distinct : line.DistinctTo (m - 1)) (positive : 1 ≤ m)
    (upto : UInt32) : purgeChainRange s.skipped (line.pub (m - 1)) s.nr upto = s.skipped := by
  rw [purgeChainRange, List.filter_eq_self]
  intro k member
  obtain ⟨j, ⟨_, below, _, behind⟩, dh, _⟩ := here.stored k member
  by_cases current : k.dh = line.pub (m - 1)
  · have same : j = m - 1 := distinct j (m - 1) (by omega) (by omega) (dh.symm.trans current)
    rw [if_pos (by omega)] at behind
    have notAhead : ¬ k.n ≥ s.nr := by
      rw [ge_iff_le, UInt32.le_iff_toNat_le]
      omega
    simp [notAhead]
  · simp [current]

/-- **A skip on an open chain** keeps the place and stores the numbers passed. -/
theorem At.skip (here : At line count m s) (distinct : line.DistinctTo (m - 1)) (open_ : 2 ≤ m)
    {upto : UInt32} (reach : upto.toNat ≤ count (m - 1))
    (skipped : skipMessageKeys line.kdf s upto = (mid, .ok ())) :
    At line count m mid ∧ Skips line m s upto mid := by
  obtain ⟨chain, within⟩ := here.opened open_
  have peer := (here.peer (by omega)).1
  obtain ⟨rfl, stays⟩ | ⟨ck, dhr, hck, hdhr, ahead, -, -, rfl⟩ := skipMessageKeys_ok skipped
  · -- Nothing to skip: `upto` is not ahead.
    rw [chain, peer] at stays
    simp only [reduceCtorEq, false_or, UInt32.le_iff_toNat_le] at stays
    refine ⟨here, by omega, rfl, fun k member => member, ?_, fun k member => .inl member⟩
    intro n above below
    omega
  · rw [chain, Option.some.injEq] at hck
    rw [peer, Option.some.injEq] at hdhr
    subst hck hdhr
    rw [UInt32.lt_iff_toNat_lt] at ahead
    have top := upto.toNat_lt
    have number : ∀ i, i < upto.toNat - s.nr.toNat →
        (UInt32.ofNat (s.nr.toNat + i)).toNat = s.nr.toNat + i := by
      intro i inside
      rw [UInt32.toNat_ofNat']
      omega
    refine ⟨⟨here.own, here.alone, here.peer, by omega, ?_, here.root, here.sent, here.before, ?_⟩,
      ?_, rfl, ?_, ?_, ?_⟩
    · intro _
      refine ⟨?_, reach⟩
      simp only [skippedTo, chainKey_add, Option.some.injEq]
      congr 1
      omega
    · intro k member
      rcases List.mem_append.1 member with old | new
      · obtain ⟨j, ⟨positive, below, parity, behind⟩, rest⟩ :=
          here.stored k (List.mem_filter.1 old).1
        refine ⟨j, ⟨positive, below, parity, ?_⟩, rest⟩
        simp only [skippedTo]
        split at behind
        · rename_i current
          rw [if_pos current]
          omega
        · rename_i past
          rw [if_neg past]
          exact behind
      · obtain ⟨pair, numbered, rfl⟩ := List.mem_map.1 new
        obtain ⟨i, inside, rfl⟩ := List.mem_map.1 numbered
        rw [List.mem_range] at inside
        refine ⟨m - 1, ⟨by omega, by omega, by omega, ?_⟩, rfl, ?_⟩
        · rw [if_pos (by omega)]
          simp only [number i inside, skippedTo]
          omega
        · simp only [number i inside, messageKey_add]
    · simp only [skippedTo]
      omega
    · intro k member
      refine List.mem_append_left _ ?_
      rw [here.purge distinct (by omega)]
      exact member
    · intro n above below
      refine ⟨_, List.mem_append_right _ (List.mem_map.2
        ⟨_, List.mem_map.2 ⟨n - s.nr.toNat, List.mem_range.2 (by omega), rfl⟩, rfl⟩), rfl, ?_⟩
      simp only [number (n - s.nr.toNat) (by omega)]
      omega
    · intro k member
      rcases List.mem_append.1 member with old | new
      · exact .inl (List.mem_filter.1 old).1
      · obtain ⟨pair, -, rfl⟩ := List.mem_map.1 new
        exact .inr rfl

/-- Before the first receiving chain a skip has nothing to do. -/
theorem At.skip_unopened (here : At line count m s) (early : m ≤ 1) {upto : UInt32}
    (skipped : skipMessageKeys line.kdf s upto = (mid, .ok ())) : mid = s := by
  obtain ⟨rfl, -⟩ | ⟨ck, dhr, hck, -⟩ := skipMessageKeys_ok skipped
  · rfl
  · rw [(here.unopened early).1] at hck
    simp at hck

/-! ## Stepping and taking a key -/

/-- **A step** onto the next key of the line, once the old chain is behind. -/
theorem At.step (here : At line count m s) (agrees : line.dh.Agrees)
    (behind : 2 ≤ m → s.nr.toNat = count (m - 1)) (unsent : count (m + 2) = 0)
    {header : Header} (next : header.dh = line.pub (m + 1)) {dhOutRecv dhOutSend : K}
    (agreed : line.dh.agree (line.secret m) header.dh = some dhOutRecv)
    (fresh : line.dh.agree (line.secret (m + 2)) header.dh = some dhOutSend) :
    At line count (m + 2)
      (dhRatchet line.kdf s header dhOutRecv dhOutSend (line.pub (m + 2))) := by
  rw [next, Line.agree_next agrees, Option.some.injEq] at agreed
  rw [next, Line.agree_before agrees, Option.some.injEq] at fresh
  subst agreed fresh
  -- The two derivations of the step are those of keys `m + 1` and `m + 2`.
  have first : kdfRk line.kdf s.rk (line.shared m) s.labels =
      (line.rootKey (m + 1), line.chain (m + 1)) := by
    rw [here.root, kdfRk_labels]
    rfl
  have second : kdfRk line.kdf (line.rootKey (m + 1)) (line.shared (m + 1)) s.labels =
      (line.rootKey (m + 2), line.chain (m + 2)) := by
    rw [kdfRk_labels]
    rfl
  refine ⟨rfl, by omega, ?_, by omega, ?_, ?_, ?_, ?_, ?_⟩
  · intro _
    simp only [dhRatchet, first, second, next]
    exact ⟨rfl, rfl⟩
  · intro _
    simp only [dhRatchet, first, UInt32.toNat_zero, chainKey_zero]
    exact ⟨rfl, Nat.zero_le _⟩
  · simp only [dhRatchet, first, second]
  · rw [unsent]
    rfl
  · exact here.sent
  · intro k member
    obtain ⟨j, ⟨positive, below, parity, passed⟩, rest⟩ := here.stored k member
    refine ⟨j, ⟨positive, by omega, by omega, ?_⟩, rest⟩
    rw [if_neg (by omega)]
    split at passed
    · rename_i current
      have same : j = m - 1 := by omega
      rw [same, ← behind (by omega)]
      exact passed
    · exact passed

/-- A key in the store either survives the aging or has outlived its age. -/
theorem mem_ageStore {k : SkippedKey K} (member : k ∈ s.skipped) :
    k ∈ (ageStore s).skipped ∨ k.aged (ageStore s).events = true := by
  by_cases old : k.aged (ageStore s).events = true
  · exact .inr old
  · refine .inl (List.mem_filter.2 ⟨member, ?_⟩)
    rw [SkippedKey.aged] at old
    simpa [ageStore] using old

/-- The clock moves on by at most one. -/
theorem ageStore_events_le (s : State K) : (ageStore s).events.toNat ≤ s.events.toNat + 1 := by
  have stepped : (s.events.saturatingAdd 1).toNat ≤ s.events.toNat + 1 := by
    rw [UInt32.toNat_saturatingAdd, UInt32.toNat_one]
    omega
  simp only [ageStore]
  split
  · rename_i last
    rw [last, UInt32.toNat_ofNat'] at stepped
    simp only [maxEvents, UInt32.reduceToNat]
    omega
  · exact stepped

/-- A key stored in this receive is not aged by it. -/
theorem not_aged_fresh {k : SkippedKey K} {now : UInt32} (clock : now.toNat ≤ s.events.toNat + 1)
    (fresh : k.storedAt = s.events) : k.aged now = false := by
  have least : maxSkippedAge.toNat = 1000 := rfl
  rw [SkippedKey.aged, decide_eq_false_iff_not, ge_iff_le, UInt32.le_iff_toNat_le,
    UInt32.toNat_saturatingSub, fresh, least]
  omega

/-- What a delivery of number `n` on chain `j` does to a party's place. -/
structure Delivers (line : Line K) (count : Nat → Nat) (m m' j : Nat) (header : Header)
    (s s' : State K) : Prop where
  at_ : At line count m' s'
  clock : s'.events.toNat ≤ s.events.toNat + 1
  kept : ∀ k ∈ s.skipped, k.named header.dh header.n = true ∨ k ∈ s'.skipped ∨
    k.aged s'.events = true
  covered : ∀ i n, Passed count m' s' i n → Passed count m s i n ∨ (i = j ∧ n = header.n.toNat) ∨
    ∃ k ∈ s'.skipped, k.dh = line.pub i ∧ k.n.toNat = n

/-- **Taking a key of the current chain**, skipping up to it. -/
theorem At.advance (here : At line count m s) (distinct : line.DistinctTo (m - 1)) (open_ : 2 ≤ m)
    {header : Header} {key key' : K} (genuine : Genuine line count (m - 1) header key)
    (advanced : advanceChain line.kdf s header = (s', .ok key')) :
    key' = key ∧ Delivers line count m m (m - 1) header s s' ∧ s'.dhsPub = s.dhsPub ∧
      s'.dhrPub = s.dhrPub := by
  obtain ⟨mid, ck, next, skipped, reached, hck, climbs, rfl, rfl⟩ := advanceChain_ok advanced
  obtain ⟨there, skips⟩ := here.skip distinct open_ genuine.sent.le skipped
  have frame := skipMessageKeys_frame skipped
  obtain ⟨chain, -⟩ := there.opened open_
  rw [chain, Option.some.injEq] at hck
  rw [UInt32.le_iff_toNat_le] at reached
  rw [UInt32.checkedAdd_eq_some, UInt32.toNat_one] at climbs
  have exact_ : mid.nr.toNat = header.n.toNat := by
    have := skips.nr
    omega
  have taken : At line count m { mid with ckr := some (kdfCk line.kdf ck).1, nr := next } := by
    refine ⟨there.own, there.alone, there.peer, by omega, ?_, there.root, there.sent, there.before,
      ?_⟩
    · intro _
      simp only [← hck, climbs]
      refine ⟨rfl, ?_⟩
      have := genuine.sent
      omega
    · intro k member
      obtain ⟨j, ⟨positive, below, parity, behind⟩, rest⟩ := there.stored k member
      refine ⟨j, ⟨positive, below, parity, ?_⟩, rest⟩
      split at behind
      · rename_i current
        rw [if_pos current]
        simp only
        omega
      · rename_i past
        rw [if_neg past]
        exact behind
  have clock : (Ratchet.ageStore
      { mid with ckr := some (kdfCk line.kdf ck).1, nr := next }).events.toNat ≤
        s.events.toNat + 1 := by
    rw [← skips.events]
    exact ageStore_events_le _
  refine ⟨?_, ⟨taken.ageStore, clock, ?_, ?_⟩, frame.1, frame.2.1⟩
  · rw [genuine.key_eq, ← exact_, ← hck]
    rfl
  · intro k member
    have still : k ∈ (State.skipped { mid with ckr := some (kdfCk line.kdf ck).1, nr := next }) :=
      skips.kept k member
    exact .inr (mem_ageStore still)
  · rintro i n ⟨positive, below, parity, behind⟩
    by_cases current : i + 1 = m
    · rw [if_pos current] at behind
      simp only [Ratchet.ageStore] at behind
      by_cases old : n < s.nr.toNat
      · exact .inl ⟨positive, below, parity, by rw [if_pos current]; exact old⟩
      · by_cases newest : n = header.n.toNat
        · exact .inr (.inl ⟨by omega, newest⟩)
        · obtain ⟨k, member, dh, number⟩ := skips.covered n (by omega) (by omega)
          have chain_eq : m - 1 = i := by omega
          rw [chain_eq] at dh
          refine .inr (.inr ⟨k, ?_, dh, number⟩)
          rcases skips.fresh k member with before | fresh
          · -- A number ahead of the chain was not stored before the skip.
            obtain ⟨j, ⟨_, below', parity', behind'⟩, dh', -⟩ := here.stored k before
            have same : j = i := distinct j i (by omega) (by omega) (dh'.symm.trans dh)
            subst same
            rw [if_pos current] at behind'
            omega
          · have still : k ∈ (State.skipped
                { mid with ckr := some (kdfCk line.kdf ck).1, nr := next }) := member
            have young := not_aged_fresh clock fresh
            exact (mem_ageStore still).resolve_right (by rw [young]; simp)
    · rw [if_neg current] at behind
      exact .inl ⟨positive, below, parity, by rw [if_neg current]; exact behind⟩

/-! ## Delivering -/

/-- The key that an advance on an open chain answers. -/
theorem advanceChain_key {kdf : Kdf K} {header : Header} {key ck : K} (chain : s.ckr = some ck)
    {dhr : Arr 32} (peer : s.dhrPub = some dhr)
    (advanced : advanceChain kdf s header = (s', .ok key)) :
    key = messageKey kdf ck (header.n.toNat - s.nr.toNat) := by
  obtain ⟨mid, ck', next, skipped, reached, hck, -, rfl, -⟩ := advanceChain_ok advanced
  rw [UInt32.le_iff_toNat_le] at reached
  obtain ⟨rfl, stays⟩ | ⟨ck'', dhr', hck'', -, ahead, -, -, rfl⟩ := skipMessageKeys_ok skipped
  · rw [chain, peer] at stays
    simp only [reduceCtorEq, false_or, UInt32.le_iff_toNat_le] at stays
    have here : header.n.toNat - mid.nr.toNat = 0 := by omega
    rw [chain, Option.some.injEq] at hck
    rw [here, hck]
    rfl
  · rw [chain, Option.some.injEq] at hck''
    subst hck''
    simp only [skippedTo, Option.some.injEq] at hck
    rw [← hck]
    rfl

/-- Serving a stored key keeps the place. -/
theorem At.serve (here : At line count m s) {top : Nat} (distinct : line.DistinctTo top)
    (hm : m ≤ top) {j : Nat} (hj : j ≤ top) {header : Header} {key key' : K}
    (genuine : Genuine line count j header key) {left : List (SkippedKey K)}
    (stored : trySkipped s.skipped header = some (key', left)) :
    key' = key ∧
      Delivers line count m m j header s (Ratchet.ageStore { s with skipped := left }) := by
  obtain ⟨⟨k, rest⟩, taken, pair⟩ := Option.map_eq_some_iff.1 stored
  simp only [Prod.mk.injEq] at pair
  obtain ⟨rfl, rfl⟩ := pair
  obtain ⟨member, named⟩ := takeFirst_mem taken
  simp only [SkippedKey.named, decide_eq_true_eq] at named
  have thinned : At line count m { s with skipped := rest } :=
    here.of_sublist (takeFirst_sublist taken)
  refine ⟨?_, thinned.ageStore, ageStore_events_le _, ?_, fun i n passed => .inl passed⟩
  · obtain ⟨i, ⟨_, below, _, _⟩, dh, key_eq⟩ := here.stored k member
    have same : i = j :=
      distinct i j (by omega) hj (dh.symm.trans (named.1.trans genuine.dh))
    rw [key_eq, genuine.key_eq, same, named.2]
  · intro k' member'
    obtain ⟨before, after, split, left_eq, hit, -⟩ := takeFirst_eq_some taken
    rw [split, List.mem_append, List.mem_cons] at member'
    rcases member' with early | rfl | late
    · refine .inr (mem_ageStore (s := { s with skipped := rest }) ?_)
      rw [left_eq]
      exact List.mem_append_left _ early
    · exact .inl hit
    · refine .inr (mem_ageStore (s := { s with skipped := rest }) ?_)
      rw [left_eq]
      exact List.mem_append_right _ late

/-- The header's key is `m`'s peer exactly when its chain is the current one. -/
theorem At.current_iff (here : At line count m s) {top : Nat} (distinct : line.DistinctTo top)
    (hm : m ≤ top) {j : Nat} (hj : j ≤ top) {header : Header} {key : K}
    (genuine : Genuine line count j header key) :
    s.dhrPub = some header.dh ↔ j + 1 = m := by
  have positive := genuine.positive
  constructor
  · intro same
    by_cases zero : m = 0
    · rw [(here.alone zero).1] at same
      simp at same
    · rw [(here.peer (by omega)).1, genuine.dh, Option.some.injEq] at same
      have := distinct (m - 1) j (by omega) hj same
      omega
  · intro current
    have place : m - 1 = j := by omega
    rw [(here.peer (by omega)).1, genuine.dh, place]

/-- **A delivery of a genuine header** serves the store, takes a key of the
current chain, steps onto the next one, or derives from a chain the party has
left, where it has nothing stored. -/
theorem At.receive (here : At line count m s) (agrees : line.dh.Agrees) {top : Nat}
    (distinct : line.DistinctTo top) (hm : m ≤ top) {j : Nat} (hj : j ≤ top) (reach : j ≤ m + 1)
    (parity : j % 2 ≠ m % 2) {header : Header} {key key' : K}
    (genuine : Genuine line count j header key) (unsent : count (m + 2) = 0)
    {newSecret : Arr 32} (next : j = m + 1 → newSecret = line.secret (m + 2))
    {dhOutRecv dhOutSend : K} (agreed : line.dh.agree (line.secret m) header.dh = some dhOutRecv)
    (fresh : line.dh.agree newSecret header.dh = some dhOutSend)
    (received : receive line.kdf s header dhOutRecv dhOutSend (line.dh.publicKey newSecret) =
      (s', .ok key')) :
    (key' = key ∧ Delivers line count m m j header s s' ∧ s'.dhsPub = s.dhsPub ∧
      s'.dhrPub = s.dhrPub) ∨
    (j = m + 1 ∧ key' = key ∧ Delivers line count m (m + 2) j header s s') ∨
    (j + 1 < m ∧ trySkipped s.skipped header = none ∧
      key' = messageKey line.kdf (kdfRk line.kdf (line.rootKey m) dhOutRecv .tacenta).2
        header.n.toNat) := by
  have positive := genuine.positive
  obtain ⟨left, stored, rfl⟩ | ⟨absent, mid, entered, advanced⟩ := receive_ok received
  · obtain ⟨same, delivers⟩ := here.serve distinct hm hj genuine stored
    exact .inl ⟨same, delivers, rfl, rfl⟩
  obtain ⟨same, rfl⟩ | ⟨other, rest, skipped, rfl⟩ := enterChain_ok entered
  · -- The current chain.
    have current := (here.current_iff distinct hm hj genuine).1 same
    have place : m - 1 = j := by omega
    rw [← place] at genuine ⊢
    exact .inl (here.advance (distinct.mono (by omega)) (by omega) genuine advanced)
  · have left := (here.current_iff distinct hm hj genuine).not.1 other
    by_cases newest : j = m + 1
    · -- A step: the old chain is skipped to its end first.
      refine .inr (.inl ⟨newest, ?_⟩)
      subst newest
      rw [next rfl] at fresh advanced
      have two : m + 1 - 2 = m - 1 := by omega
      have ended : header.pn.toNat = count (m - 1) := by rw [genuine.before, two]
      have onward : At line count m rest ∧ rest.events = s.events ∧
          (2 ≤ m → Skips line m s header.pn rest) ∧ (m ≤ 1 → rest = s) := by
        by_cases open_ : 2 ≤ m
        · obtain ⟨there, skips⟩ :=
            here.skip (distinct.mono (by omega)) open_ (le_of_eq ended) skipped
          exact ⟨there, skips.events, fun _ => skips, by omega⟩
        · have still := here.skip_unopened (by omega) skipped
          exact ⟨still ▸ here, by rw [still], by omega, fun _ => still⟩
      obtain ⟨there, events, skips, still⟩ := onward
      have behind : 2 ≤ m → rest.nr.toNat = count (m - 1) := by
        intro open_
        have := (skips open_).nr
        have := (here.opened open_).2
        omega
      have stepped := there.step agrees behind unsent genuine.dh agreed fresh
      obtain ⟨key_eq, delivers, -, -⟩ :=
        stepped.advance (distinct.mono (by omega)) (by omega) genuine advanced
      have clock : s'.events.toNat ≤ s.events.toNat + 1 := by
        rw [← events]
        exact delivers.clock
      refine ⟨key_eq, delivers.at_, clock, ?_, ?_⟩
      · intro k member
        by_cases open_ : 2 ≤ m
        · exact delivers.kept k ((skips open_).kept k member)
        · rw [still (by omega)] at delivers
          exact delivers.kept k member
      · intro i n passed
        obtain ⟨first, below, odd, behind'⟩ := passed
        rcases delivers.covered i n ⟨first, below, odd, behind'⟩ with before | answered | kept
        · -- Behind before the step: passed already, or just skipped on the old chain.
          obtain ⟨-, -, -, was⟩ := before
          have old : i + 1 ≠ m + 2 := by
            intro new
            rw [if_pos new] at was
            exact absurd was (Nat.not_lt_zero n)
          rw [if_neg old] at was
          by_cases current : i + 1 = m
          · by_cases passed : n < s.nr.toNat
            · exact .inl ⟨first, by omega, by omega, by rw [if_pos current]; exact passed⟩
            · have place : m - 1 = i := by omega
              rw [place] at ended
              obtain ⟨k, member, dh, number⟩ :=
                (skips (by omega)).covered n (by omega) (by omega)
              rw [place] at dh
              have young : k.storedAt = s.events := by
                refine ((skips (by omega)).fresh k member).resolve_left fun stored => ?_
                obtain ⟨j, ⟨_, below', _, behind''⟩, dh', -⟩ := here.stored k stored
                have same : j = i :=
                  distinct j i (by omega) (by omega) (dh'.symm.trans dh)
                rw [same, if_pos current] at behind''
                omega
              rcases delivers.kept k member with named | still | old
              · simp only [SkippedKey.named, decide_eq_true_eq] at named
                have := distinct i (m + 1) (by omega) hj
                  (dh.symm.trans (named.1.trans genuine.dh))
                omega
              · exact .inr (.inr ⟨k, still, dh, number⟩)
              · rw [not_aged_fresh clock young] at old
                simp at old
          · exact .inl ⟨first, by omega, by omega, by rw [if_neg current]; exact was⟩
        · exact .inr (.inl answered)
        · exact .inr (.inr kept)
    · refine .inr (.inr ⟨by omega, absent, ?_⟩)
      have root : rest.rk = line.rootKey m := by
        rw [← here.root]
        obtain ⟨rfl, -⟩ | ⟨_, _, -, -, -, -, -, rfl⟩ := skipMessageKeys_ok skipped
        · rfl
        · rfl
      rw [advanceChain_key (by rfl) rfl advanced, root, kdfRk_labels]
      rfl

/-- A delivery past the store ends on the header's chain. -/
theorem receive_dhrPub {kdf : Kdf K} {header : Header} {dhOutRecv dhOutSend key : K}
    {newDhsPub : Arr 32} (absent : trySkipped s.skipped header = none)
    (received : receive kdf s header dhOutRecv dhOutSend newDhsPub = (s', .ok key)) :
    s'.dhrPub = some header.dh := by
  obtain ⟨left, stored, -⟩ | ⟨-, mid, entered, advanced⟩ := receive_ok received
  · rw [absent] at stored
    simp at stored
  · obtain ⟨ahead, ck, next, skipped, -, -, -, -, rfl⟩ := advanceChain_ok advanced
    show ahead.dhrPub = some header.dh
    rw [(skipMessageKeys_frame skipped).2.1]
    obtain ⟨same, rfl⟩ | ⟨-, rest, -, rfl⟩ := enterChain_ok entered
    · exact same
    · rfl

/-- Nothing is stored for a chain the party has not entered. -/
theorem At.absent_next (here : At line count m s) {top : Nat} (distinct : line.DistinctTo top)
    (hm : m + 1 ≤ top) {header : Header} {key : K}
    (genuine : Genuine line count (m + 1) header key) : trySkipped s.skipped header = none := by
  rw [trySkipped, Option.map_eq_none_iff, takeFirst_eq_none]
  intro k member
  obtain ⟨i, ⟨_, below, _, _⟩, dh, -⟩ := here.stored k member
  rw [SkippedKey.named, decide_eq_false_iff_not]
  rintro ⟨same, -⟩
  have := distinct i (m + 1) (by omega) hm (dh.symm.trans (same.trans genuine.dh))
  omega

/-! ## Deliveries inside the bounds -/

/-- A skip within both bounds is not refused. -/
theorem skipMessageKeys_answers (kdf : Kdf K) {upto : UInt32}
    (near : s.ckr.isSome = true → upto.toNat ≤ s.nr.toNat + maxSkip.toNat)
    (room : s.skipped.length + (upto.toNat - s.nr.toNat) ≤ maxSkippedStore) :
    ∃ mid, skipMessageKeys kdf s upto = (mid, .ok ()) ∧
      mid.skipped.length ≤ s.skipped.length + (upto.toNat - s.nr.toNat) := by
  unfold skipMessageKeys
  split
  · rename_i ck dhr hck hdhr
    by_cases behind : upto ≤ s.nr
    · rw [if_pos behind]
      exact ⟨s, rfl, Nat.le_add_right _ _⟩
    · have ahead := UInt32.not_le.1 behind
      have top := upto.toNat_lt
      have close := near (by rw [hck]; rfl)
      have few : ¬ upto > s.nr.saturatingAdd maxSkip := by
        rw [gt_iff_lt, UInt32.lt_iff_toNat_lt, UInt32.toNat_saturatingAdd]
        omega
      have count : (upto - s.nr).toNat = upto.toNat - s.nr.toNat :=
        UInt32.toNat_sub_of_le _ _ (UInt32.le_of_lt ahead)
      have purged : (purgeChainRange s.skipped dhr s.nr upto).length ≤ s.skipped.length :=
        List.length_filter_le _ _
      have fits : ¬ (purgeChainRange s.skipped dhr s.nr upto).length + (upto - s.nr).toNat >
          maxSkippedStore := by
        rw [count]
        omega
      simp only [if_neg behind, if_neg few, if_neg fits, deriveChain_eq ck ahead]
      refine ⟨_, rfl, ?_⟩
      simp only [List.length_append, List.length_map, numberedKeys, List.length_range]
      omega
  · exact ⟨s, rfl, Nat.le_add_right _ _⟩

/-- An advance within both bounds to a number not behind is not refused. -/
theorem advanceChain_answers (kdf : Kdf K) {header : Header} {ck : K} (chain : s.ckr = some ck)
    {dhr : Arr 32} (peer : s.dhrPub = some dhr) (due : s.nr.toNat ≤ header.n.toNat)
    (last : header.n.toNat + 1 < 2 ^ 32)
    (near : header.n.toNat ≤ s.nr.toNat + maxSkip.toNat)
    (room : s.skipped.length + (header.n.toNat - s.nr.toNat) ≤ maxSkippedStore) :
    ∃ s' key, advanceChain kdf s header = (s', .ok key) := by
  obtain ⟨mid, skipped, -⟩ := skipMessageKeys_answers kdf (fun _ => near) room
  have there : mid.nr = header.n ∧ ∃ ck', mid.ckr = some ck' := by
    obtain ⟨rfl, stays⟩ | ⟨ck', dhr', -, -, ahead, -, -, rfl⟩ := skipMessageKeys_ok skipped
    · rw [chain, peer] at stays
      simp only [reduceCtorEq, false_or, UInt32.le_iff_toNat_le] at stays
      exact ⟨UInt32.toNat_inj.1 (by omega), ck, chain⟩
    · exact ⟨rfl, _, rfl⟩
  obtain ⟨exact_, ck', hck'⟩ := there
  have climbs : ∃ next, mid.nr.checkedAdd 1 = some next := by
    refine ⟨UInt32.ofNat (header.n.toNat + 1), ?_⟩
    rw [exact_, UInt32.checkedAdd_eq_some, UInt32.toNat_ofNat', UInt32.toNat_one]
    omega
  obtain ⟨next, hnext⟩ := climbs
  have reached : ¬ header.n < mid.nr := by
    rw [exact_]
    exact UInt32.lt_irrefl _
  simp only [advanceChain, skipped, if_neg reached, hck', hnext]
  exact ⟨_, _, rfl⟩

/-- How many keys a delivery skips: on the chain it leaves, and on its own. -/
def skipCounts (s : State K) (header : Header) : Nat × Nat :=
  if (trySkipped s.skipped header).isSome then (0, 0)
  else if s.dhrPub = some header.dh then (0, header.n.toNat - s.nr.toNat)
  else (header.pn.toNat - s.nr.toNat, header.n.toNat)

/-- **A delivery within the bounds is answered**, from the store, on the current
chain at a number not behind, or on a chain not entered yet. -/
theorem receive_answers (kdf : Kdf K) {header : Header} (dhOutRecv dhOutSend : K)
    (newDhsPub : Arr 32) (last : header.n.toNat + 1 < 2 ^ 32)
    (opened : s.dhrPub = some header.dh → (trySkipped s.skipped header).isSome = true ∨
      (s.ckr.isSome = true ∧ s.nr.toNat ≤ header.n.toNat))
    (old : (skipCounts s header).1 ≤ maxSkip.toNat)
    (new : (skipCounts s header).2 ≤ maxSkip.toNat)
    (room : s.skipped.length + (skipCounts s header).1 + (skipCounts s header).2 ≤
      maxSkippedStore) :
    ∃ s' key, receive kdf s header dhOutRecv dhOutSend newDhsPub = (s', .ok key) := by
  unfold Ratchet.receive
  cases stored : trySkipped s.skipped header with
  | some found => exact ⟨_, _, rfl⟩
  | none =>
      rw [skipCounts, stored, Option.isSome_none, if_neg Bool.false_ne_true] at old new room
      by_cases same : s.dhrPub = some header.dh
      · rw [if_pos same] at old new room
        obtain ⟨chain, due⟩ := (opened same).resolve_left (by rw [stored]; simp)
        obtain ⟨ck, hck⟩ := Option.isSome_iff_exists.1 chain
        simp only [enterChain_same same]
        exact advanceChain_answers kdf hck same due last (by omega) (by omega)
      · rw [if_neg same] at old new room
        simp only at old new room
        have skips : ∃ mid, skipMessageKeys kdf s header.pn = (mid, .ok ()) ∧
            mid.skipped.length ≤ s.skipped.length + (header.pn.toNat - s.nr.toNat) :=
          skipMessageKeys_answers kdf (fun _ => by omega) (by omega)
        obtain ⟨mid, skipped, length⟩ := skips
        rw [enterChain_other same, skipped]
        have chain : (dhRatchet kdf mid header dhOutRecv dhOutSend newDhsPub).ckr =
            some (kdfRk kdf mid.rk dhOutRecv mid.labels).2 := rfl
        have fresh : (dhRatchet kdf mid header dhOutRecv dhOutSend newDhsPub).nr.toNat = 0 := rfl
        have store : (dhRatchet kdf mid header dhOutRecv dhOutSend newDhsPub).skipped =
            mid.skipped := rfl
        refine advanceChain_answers kdf chain rfl ?_ last ?_ ?_
        · rw [fresh]
          exact Nat.zero_le _
        · rw [fresh]
          omega
        · rw [fresh, store]
          omega

end Tacenta.Ratchet
