/-
# Tacenta.Ratchet.InOrder -- deliveries that keep the order

Where a wire loses messages and keeps the order of the rest, a receiver has
always gone past whole chains and a first part of the one it is on.  `sentBefore`
numbers a sender's messages along its chains, so that a receiver on chain `m - 1`
has passed `sentBefore count (m - 1) + nr` of them.

The next message to arrive is then on that chain or the one after, ahead of the
counter and no further than what was lost: no skip is too long, so a receive is
refused at most by a full store (`At.receive_near`), and one that is not leaves
the receiver right behind the message (`At.receive_inOrder`).
-/
import Tacenta.Network
import Tacenta.Ratchet.Agreement
import Tacenta.Ratchet.Skips

set_option autoImplicit false

namespace Tacenta.Ratchet

variable {K : Type} {line : Line K} {count : Nat → Nat} {m j : Nat} {s s' : State K}

/-! ## Positions -/

/-- How many messages the holder of chain `j` sent on its chains before. -/
def sentBefore (count : Nat → Nat) : Nat → Nat
  | 0 => 0
  | 1 => 0
  | j + 2 => sentBefore count j + count j

theorem sentBefore_congr {count' : Nat → Nat} (same : ∀ k < j, k % 2 = j % 2 → count' k = count k) :
    sentBefore count' j = sentBefore count j := by
  induction j using Nat.twoStepInduction with
  | zero | one => rfl
  | more j ih _ =>
      rw [sentBefore, sentBefore, same j (by omega) (by omega),
        ih fun k below parity => same k (by omega) (by omega)]

/-- A chain left is behind all that follows. -/
theorem sentBefore_le (count : Nat → Nat) {i : Nat} (below : j < i) (parity : j % 2 = i % 2) :
    sentBefore count j + count j ≤ sentBefore count i := by
  induction i using Nat.twoStepInduction with
  | zero => omega
  | one => omega
  | more i ih _ =>
      rw [sentBefore]
      by_cases last : j = i
      · rw [last]
      · have := ih (by omega) (by omega)
        omega

/-! ## What can refuse -/

/-- A skip no further than the bound is refused by a full store, or not at all. -/
theorem skipMessageKeys_near (kdf : Kdf K) (s : State K) {upto : UInt32}
    (near : upto.toNat ≤ s.nr.toNat + maxSkip.toNat) :
    (∃ mid, skipMessageKeys kdf s upto = (mid, .ok ())) ∨
      (skipMessageKeys kdf s upto).2 = .error .skippedStoreFull := by
  by_cases behind : upto.toNat ≤ s.nr.toNat
  · exact .inl ⟨s, skipMessageKeys_behind behind⟩
  cases chain : s.ckr with
  | none => exact .inl ⟨s, by simp [skipMessageKeys, chain]⟩
  | some ck =>
      cases peer : s.dhrPub with
      | none => exact .inl ⟨s, by simp [skipMessageKeys, chain, peer]⟩
      | some dhr =>
          rw [skipMessageKeys_eq chain peer (by omega), if_neg (by omega)]
          split
          · exact .inr rfl
          · exact .inl ⟨_, rfl⟩

/-- An advance to a number ahead, no further than the bound. -/
theorem advanceChain_near {kdf : Kdf K} {header : Header} {ck : K} {dhr : Arr 32}
    (chain : s.ckr = some ck) (peer : s.dhrPub = some dhr) (ahead : s.nr.toNat ≤ header.n.toNat)
    (near : header.n.toNat ≤ s.nr.toNat + maxSkip.toNat) (last : header.n.toNat + 1 < 2 ^ 32) :
    (∃ next key, advanceChain kdf s header = (next, .ok key)) ∨
      (advanceChain kdf s header).2 = .error .skippedStoreFull := by
  unfold advanceChain
  obtain ⟨mid, skipped⟩ | full := skipMessageKeys_near kdf s near
  · -- The skip leaves an open chain whose counter is the number itself.
    obtain ⟨open_, number⟩ : (∃ ck, mid.ckr = some ck) ∧ mid.nr.toNat = header.n.toNat := by
      obtain ⟨rfl, stays⟩ | ⟨ck', dhr', -, -, -, -, -, rfl⟩ := skipMessageKeys_ok skipped
      · rw [chain, peer] at stays
        simp only [reduceCtorEq, false_or, UInt32.le_iff_toNat_le] at stays
        exact ⟨⟨ck, chain⟩, by omega⟩
      · exact ⟨⟨_, rfl⟩, rfl⟩
    obtain ⟨ck', hck⟩ := open_
    have notBehind : ¬ header.n < mid.nr := by
      rw [UInt32.lt_iff_toNat_lt]
      omega
    obtain ⟨next, climbs⟩ : ∃ next, mid.nr.checkedAdd 1 = some next := by
      refine ⟨mid.nr + 1, ?_⟩
      rw [UInt32.checkedAdd_eq_some, UInt32.toNat_add, UInt32.toNat_one]
      omega
    simp only [skipped, if_neg notBehind, hck, climbs]
    exact .inl ⟨_, _, rfl⟩
  · refine .inr ?_
    generalize skipMessageKeys kdf s header.n = result at full ⊢
    obtain ⟨left, outcome⟩ := result
    simp only at full
    rw [full]

/-! ## A delivery in order -/

/-- The message of number `n` on chain `j` is the next one to a party on chain
`m - 1`, up to `lost` messages that never came. -/
structure InOrder (count : Nat → Nat) (m : Nat) (s : State K) (j : Nat) (header : Header)
    (lost : Nat) : Prop where
  place : sentBefore count j + header.n.toNat = sentBefore count (m - 1) + s.nr.toNat + lost
  near : lost ≤ maxSkip.toNat

/-- **What comes in order** is ahead on the current chain, or on the next one with
the rest of the current one lost. -/
theorem InOrder.ahead (here : At line count m s) (reach : j ≤ m + 1) (parity : j % 2 ≠ m % 2)
    {header : Header} {lost : Nat} (inOrder : InOrder count m s j header lost)
    (sent : header.n.toNat < count j) :
    (j + 1 = m ∧ header.n.toNat = s.nr.toNat + lost) ∨
      (j = m + 1 ∧ header.n.toNat ≤ lost ∧ (2 ≤ m → count (m - 1) ≤ s.nr.toNat + lost)) := by
  have place := inOrder.place
  rcases Nat.lt_or_ge j m with below | above
  · left
    by_cases current : j + 1 = m
    · refine ⟨current, ?_⟩
      rw [show m - 1 = j by omega] at place
      omega
    · have := sentBefore_le count (show j < m - 1 by omega) (by omega)
      omega
  · obtain rfl : j = m + 1 := by omega
    refine .inr ⟨rfl, ?_⟩
    by_cases open_ : 2 ≤ m
    · have split : sentBefore count (m + 1) = sentBefore count (m - 1) + count (m - 1) := by
        rw [show m + 1 = m - 1 + 2 by omega, sentBefore]
      have := (here.opened open_).2
      omega
    · have unopened := (here.unopened (by omega)).2
      have start : sentBefore count (m - 1) = 0 := by
        rw [show m - 1 = 0 by omega, sentBefore]
      omega

/-- Nothing is stored for a message that comes in order. -/
theorem InOrder.absent (here : At line count m s) {top : Nat} (distinct : line.DistinctTo top)
    (hm : m ≤ top) (hj : j ≤ top) {header : Header} {lost : Nat}
    (inOrder : InOrder count m s j header lost) {key : K} (genuine : Genuine line count j header key) :
    trySkipped s.skipped header = none := by
  rw [trySkipped, Option.map_eq_none_iff, takeFirst_eq_none]
  intro k member
  obtain ⟨i, ⟨_, below, parity, behind⟩, dh, -⟩ := here.stored k member
  by_contra named
  simp only [Bool.not_eq_false, SkippedKey.named, decide_eq_true_eq] at named
  obtain rfl := distinct i j (by omega) hj (dh.symm.trans (named.1.trans genuine.dh))
  have place := inOrder.place
  rw [named.2] at behind
  split at behind
  · rename_i current
    rw [show m - 1 = i by omega] at place
    omega
  · have := sentBefore_le count (show i < m - 1 by omega) (by omega)
    omega

/-- **A delivery in order is refused by a full store, or not at all.** -/
theorem At.receive_near (here : At line count m s) {top : Nat} (distinct : line.DistinctTo top)
    (hm : m ≤ top) (hj : j ≤ top) (reach : j ≤ m + 1) (parity : j % 2 ≠ m % 2) {header : Header}
    {key : K} (genuine : Genuine line count j header key) {lost : Nat}
    (inOrder : InOrder count m s j header lost) (dhOutRecv dhOutSend : K) (newDhsPub : Arr 32) :
    (∃ next key', Ratchet.receive line.kdf s header dhOutRecv dhOutSend newDhsPub = (next, .ok key')) ∨
      (Ratchet.receive line.kdf s header dhOutRecv dhOutSend newDhsPub).2 = .error .skippedStoreFull := by
  have near := inOrder.near
  unfold Ratchet.receive
  rw [inOrder.absent here distinct hm hj genuine]
  obtain ⟨current, number⟩ | ⟨rfl, number, left⟩ :=
    inOrder.ahead here reach parity genuine.sent
  · have same := (here.current_iff distinct hm hj genuine).2 current
    simp only [enterChain_same same]
    exact advanceChain_near (here.opened (by have := genuine.positive; omega)).1 same (by omega)
      (by omega) genuine.last
  · have other := (here.current_iff distinct hm hj genuine).not.2 (by omega)
    simp only [enterChain_other other]
    -- The rest of the old chain is skipped, if there was one.
    have skips : (∃ mid, skipMessageKeys line.kdf s header.pn = (mid, .ok ())) ∨
        (skipMessageKeys line.kdf s header.pn).2 = .error .skippedStoreFull := by
      by_cases open_ : 2 ≤ m
      · have before := genuine.before
        rw [show m + 1 - 2 = m - 1 by omega] at before
        have := left open_
        exact skipMessageKeys_near _ s (by omega)
      · exact .inl ⟨s, by simp [skipMessageKeys, (here.unopened (by omega)).1]⟩
    obtain ⟨mid, skipped⟩ | full := skips
    · simp only [skipped]
      exact advanceChain_near rfl rfl (Nat.zero_le _)
        (by show header.n.toNat ≤ 0 + maxSkip.toNat; omega) genuine.last
    · refine .inr ?_
      generalize skipMessageKeys line.kdf s header.pn = result at full ⊢
      obtain ⟨rest, outcome⟩ := result
      simp only at full
      rw [full]

/-- The counter after an advance is right behind the message. -/
theorem advanceChain_nr {kdf : Kdf K} {header : Header} {key : K} {ck : K} {dhr : Arr 32}
    (chain : s.ckr = some ck) (peer : s.dhrPub = some dhr)
    (advanced : advanceChain kdf s header = (s', .ok key)) :
    s'.nr.toNat = header.n.toNat + 1 ∧ s'.dhrPub = s.dhrPub := by
  obtain ⟨mid, ck', next, skipped, reached, -, climbs, -, rfl⟩ := advanceChain_ok advanced
  rw [UInt32.checkedAdd_eq_some, UInt32.toNat_one] at climbs
  rw [UInt32.le_iff_toNat_le] at reached
  refine ⟨?_, (skipMessageKeys_frame skipped).2.1⟩
  show next.toNat = _
  obtain ⟨rfl, stays⟩ | ⟨ck'', dhr', -, -, -, -, -, rfl⟩ := skipMessageKeys_ok skipped
  · rw [chain, peer] at stays
    simp only [reduceCtorEq, false_or, UInt32.le_iff_toNat_le] at stays
    omega
  · rw [climbs]
    rfl

/-- **A delivery in order that is not refused** answers the line's key, and leaves
the party right behind the message: on its current chain, or on the next with a
key of its own adopted. -/
theorem At.receive_inOrder (here : At line count m s) (agrees : line.dh.Agrees) {top : Nat}
    (distinct : line.DistinctTo top) (hm : m ≤ top) (hj : j ≤ top) (reach : j ≤ m + 1)
    (parity : j % 2 ≠ m % 2) {header : Header} {key key' : K}
    (genuine : Genuine line count j header key) (unsent : count (m + 2) = 0) {lost : Nat}
    (inOrder : InOrder count m s j header lost) {newSecret : Arr 32}
    (next : j = m + 1 → newSecret = line.secret (m + 2)) {dhOutRecv dhOutSend : K}
    (agreed : line.dh.agree (line.secret m) header.dh = some dhOutRecv)
    (fresh : line.dh.agree newSecret header.dh = some dhOutSend)
    (received : Ratchet.receive line.kdf s header dhOutRecv dhOutSend (line.dh.publicKey newSecret) =
      (s', .ok key')) :
    key' = key ∧ At line count (if j = m + 1 then m + 2 else m) s' ∧
      sentBefore count j + header.n.toNat + 1 =
        sentBefore count ((if j = m + 1 then m + 2 else m) - 1) + s'.nr.toNat := by
  have outcome := here.receive agrees distinct hm hj reach parity genuine unsent next agreed fresh
    received
  have absent := inOrder.absent here distinct hm hj genuine
  obtain ⟨left, stored, -⟩ | ⟨-, mid, entered, advanced⟩ := receive_ok received
  · rw [absent] at stored
    simp at stored
  obtain ⟨current, number⟩ | ⟨onward, -, -⟩ := inOrder.ahead here reach parity genuine.sent
  · rw [if_neg (by omega)]
    obtain ⟨same, delivers, -, -⟩ | ⟨onward, -⟩ | ⟨behind, -⟩ := outcome
    · obtain ⟨-, rfl⟩ | ⟨other, -⟩ := enterChain_ok entered
      · have place := inOrder.place
        have counter := (advanceChain_nr (here.opened (by have := genuine.positive; omega)).1
          (here.peer (by omega)).1 advanced).1
        rw [show m - 1 = j by omega]
        exact ⟨same, delivers.at_, by omega⟩
      · exact absurd ((here.current_iff distinct hm hj genuine).2 current) other
    · omega
    · omega
  · rw [if_pos onward]
    have other := (here.current_iff distinct hm hj genuine).not.2 (by omega)
    obtain ⟨was, -⟩ | ⟨-, rest, -, rfl⟩ := enterChain_ok entered
    · exact absurd was other
    obtain ⟨counter, peer⟩ := advanceChain_nr rfl rfl advanced
    obtain ⟨-, -, -, still⟩ | ⟨-, same, delivers⟩ | ⟨behind, -⟩ := outcome
    · exact absurd (still.symm.trans peer) other
    · rw [show m + 2 - 1 = j by omega]
      exact ⟨same, delivers.at_, by omega⟩
    · omega

/-! ## A key more on the line -/

namespace Line

/-- The line with another key in place `k`. -/
def adopt (line : Line K) (k : Nat) (secret : Arr 32) : Line K :=
  { line with secret := Function.update line.secret k secret }

variable {k i : Nat} {newSecret : Arr 32}

@[simp] theorem adopt_self : (line.adopt k newSecret).secret k = newSecret := Function.update_self ..

theorem secret_adopt (other : i ≠ k) : (line.adopt k newSecret).secret i = line.secret i :=
  Function.update_of_ne other ..

theorem pub_adopt (other : i ≠ k) : (line.adopt k newSecret).pub i = line.pub i :=
  congrArg line.dh.publicKey (secret_adopt other)

theorem shared_adopt (below : i + 1 < k) : (line.adopt k newSecret).shared i = line.shared i := by
  unfold shared
  rw [secret_adopt (by omega), pub_adopt (by omega)]
  rfl

theorem rootKey_adopt (below : i < k) : (line.adopt k newSecret).rootKey i = line.rootKey i := by
  induction i with
  | zero => rfl
  | succ i ih =>
      rw [rootKey, rootKey, ih (by omega), shared_adopt below]
      rfl

theorem chain_adopt (positive : 1 ≤ i) (below : i < k) :
    (line.adopt k newSecret).chain i = line.chain i := by
  unfold chain
  rw [rootKey_adopt (by omega), shared_adopt (by omega)]
  rfl

/-- A fresh key keeps the line's keys distinct. -/
theorem DistinctTo.adopt (distinct : line.DistinctTo k)
    (fresh : ∀ i ≤ k, line.pub i ≠ line.dh.publicKey newSecret) :
    (line.adopt (k + 1) newSecret).DistinctTo (k + 1) := by
  have last : (line.adopt (k + 1) newSecret).pub (k + 1) = line.dh.publicKey newSecret :=
    congrArg line.dh.publicKey adopt_self
  intro i j hi hj same
  rcases Nat.lt_or_ge k i with topI | belowI <;> rcases Nat.lt_or_ge k j with topJ | belowJ
  · omega
  · obtain rfl : i = k + 1 := by omega
    rw [last, pub_adopt (by omega)] at same
    exact absurd same.symm (fresh j belowJ)
  · obtain rfl : j = k + 1 := by omega
    rw [last, pub_adopt (by omega)] at same
    exact absurd same (fresh i belowI)
  · rw [pub_adopt (by omega), pub_adopt (by omega)] at same
    exact distinct i j belowI belowJ same

end Line

theorem Genuine.adopt {k : Nat} {newSecret : Arr 32} {header : Header} {key : K}
    (genuine : Genuine line count j header key) (below : j < k) :
    Genuine (line.adopt k newSecret) count j header key :=
  { genuine with
    dh := genuine.dh.trans (Line.pub_adopt (by omega)).symm
    key_eq := by
      rw [Line.chain_adopt genuine.positive below]
      exact genuine.key_eq }

theorem At.adopt {k : Nat} {newSecret : Arr 32} (here : At line count m s) (below : m < k) :
    At (line.adopt k newSecret) count m s where
  own := here.own.trans (Line.pub_adopt (by omega)).symm
  alone := here.alone
  peer positive := by
    rw [Line.pub_adopt (by omega), Line.chain_adopt positive below]
    exact here.peer positive
  unopened := here.unopened
  opened open_ := by
    rw [Line.chain_adopt (by omega) (by omega)]
    exact here.opened open_
  root := here.root.trans (Line.rootKey_adopt below).symm
  sent := here.sent
  before := here.before
  stored key member := by
    obtain ⟨j, passed, dh, value⟩ := here.stored key member
    have := passed.2.1
    refine ⟨j, passed, ?_, ?_⟩
    · rw [Line.pub_adopt (by omega)]
      exact dh
    · rw [Line.chain_adopt passed.1 (by omega)]
      exact value

/-! ## Both parties -/

/-- The newest place. -/
def newest (place : Bool → Nat) : Nat := max (place true) (place false)

/-- Both parties on the line, on keys among `used`: `x` has sent `issued x`
messages, and its peer has come past the first `passed x` of them. -/
structure Conversation (line : Line K) (count : Nat → Nat) (place : Bool → Nat)
    (party : Bool → Party K) (issued passed : Bool → Nat) (used : List (Arr 32)) : Prop where
  parity : ∀ x, place x % 2 = x.toNat
  close : ∀ x, place x ≤ place (!x) + 1
  distinct : line.DistinctTo (newest place)
  keys : ∀ k ≤ newest place, line.pub k ∈ used
  unsent : ∀ k, newest place < k → count k = 0
  at_ : ∀ x, At line count (place x) (party x).state
  secret : ∀ x, (party x).secret = line.secret (place x)
  issued : ∀ x, sentBefore count (place x) + count (place x) = issued x
  passed : ∀ x, sentBefore count (place (!x) - 1) + (party (!x)).state.nr.toNat = passed x

/-- The `i`-th message of the party at place `m`. -/
def Numbered (line : Line K) (count : Nat → Nat) (m i : Nat) (header : Header) (key : K) : Prop :=
  ∃ j, j ≤ m ∧ j % 2 = m % 2 ∧ sentBefore count j + header.n.toNat = i ∧
    Genuine line count j header key

variable {place : Bool → Nat} {party : Bool → Party K} {issued passed : Bool → Nat}
  {used : List (Arr 32)} {i : Nat} {header : Header} {key : K}

theorem le_newest (place : Bool → Nat) (x : Bool) : place x ≤ newest place := by
  cases x
  · exact le_max_right ..
  · exact le_max_left ..

/-- The two places are neighbours. -/
theorem Conversation.next_to (conv : Conversation line count place party issued passed used)
    (x : Bool) :
    place (!x) % 2 ≠ place x % 2 ∧ (place x = place (!x) + 1 ∨ place (!x) = place x + 1) := by
  have mine := conv.parity x
  have theirs := conv.parity !x
  have close := conv.close x
  have close' := conv.close !x
  rw [Bool.not_not] at close'
  have apart : place (!x) % 2 ≠ place x % 2 := by
    rw [mine, theirs]
    cases x <;> decide
  exact ⟨apart, by omega⟩

/-- One more message leaves the numbers of those before. -/
theorem Numbered.grow {m m' : Nat} (numbered : Numbered line count m i header key)
    (positive : 1 ≤ m') (apart : m' = m ∨ m' % 2 ≠ m % 2) :
    Numbered line (Function.update count m' (count m' + 1)) m i header key := by
  obtain ⟨j, le, parity, number, genuine⟩ := numbered
  refine ⟨j, le, parity, ?_, genuine.grow (by have := genuine.positive; omega)⟩
  rw [sentBefore_congr fun k below same => Function.update_of_ne (by omega) ..]
  exact number

theorem Numbered.adopt {m k : Nat} {newSecret : Arr 32}
    (numbered : Numbered line count m i header key)
    (below : m < k) : Numbered (line.adopt k newSecret) count m i header key := by
  obtain ⟨j, le, parity, number, genuine⟩ := numbered
  exact ⟨j, le, parity, number, genuine.adopt (by omega)⟩

/-- A party that has moved on sent what it sent before. -/
theorem Numbered.mono {m m' : Nat} (numbered : Numbered line count m i header key) (le : m ≤ m')
    (parity : m % 2 = m' % 2) : Numbered line count m' i header key := by
  obtain ⟨j, below, same, number, genuine⟩ := numbered
  exact ⟨j, by omega, by omega, number, genuine⟩

/-- An open sending chain is refused at its ceiling only. -/
theorem At.send_answers (here : At line count m s) (opened : 1 ≤ m) (room : s.ns.toNat + 1 < 2 ^ 32) :
    ∃ s' header key, Ratchet.send line.kdf s = (s', .ok (header, key)) := by
  obtain ⟨next, climbs⟩ : ∃ next, s.ns.checkedAdd 1 = some next := by
    refine ⟨s.ns + 1, ?_⟩
    rw [UInt32.checkedAdd_eq_some, UInt32.toNat_add, UInt32.toNat_one]
    omega
  simp only [Ratchet.send, (here.peer opened).2, climbs]
  exact ⟨_, _, _, rfl⟩

/-- **Sending** numbers the next message. -/
theorem Conversation.send (conv : Conversation line count place party issued passed used) {x : Bool}
    (opened : 1 ≤ place x) (room : (party x).state.ns.toNat + 1 < 2 ^ 32) :
    ∃ s' header key, Ratchet.send line.kdf (party x).state = (s', .ok (header, key)) ∧
      Conversation line (Function.update count (place x) (count (place x) + 1)) place
        (Function.update party x { party x with state := s' })
        (Function.update issued x (issued x + 1)) passed used ∧
      Numbered line (Function.update count (place x) (count (place x) + 1)) (place x) (issued x)
        header key := by
  obtain ⟨s', header, key, sent⟩ := (conv.at_ x).send_answers opened room
  obtain ⟨-, here, genuine⟩ := (conv.at_ x).send sent
  obtain ⟨apart, next⟩ := conv.next_to x
  have before : ∀ j, (j ≤ place x ∨ j % 2 ≠ place x % 2) →
      sentBefore (Function.update count (place x) (count (place x) + 1)) j = sentBefore count j :=
    fun j early => sentBefore_congr fun k below same => Function.update_of_ne (by omega) ..
  have number : header.n = (party x).state.ns := by
    obtain ⟨ck, next, -, -, rfl, -⟩ := Ratchet.send_ok sent
    rfl
  have kept : s'.nr = (party x).state.nr := by
    obtain ⟨ck, next, -, -, -, -, rfl⟩ := Ratchet.send_ok sent
    rfl
  refine ⟨s', header, key, sent, ⟨conv.parity, conv.close, conv.distinct, conv.keys, ?_, ?_, ?_, ?_,
    ?_⟩, place x, le_rfl, rfl, ?_, genuine⟩
  · intro k beyond
    rw [Function.update_of_ne (by have := le_newest place x; omega)]
    exact conv.unsent k beyond
  · intro y
    obtain rfl | rfl := Bool.eq_or_eq_not y x
    · rw [Function.update_self]
      exact here
    · rw [Function.update_of_ne (Network.not_ne x)]
      refine (conv.at_ !x).grow (fun k => ?_) (Function.update_of_ne (by omega) ..)
        (Function.update_of_ne (by omega) ..) fun j below parity => Function.update_of_ne (by omega) ..
      by_cases same : k = place x
      · rw [same, Function.update_self]
        omega
      · rw [Function.update_of_ne same]
  · intro y
    by_cases same : y = x
    · rw [same, Function.update_self]
      exact conv.secret x
    · rw [Function.update_of_ne same]
      exact conv.secret y
  · intro y
    obtain rfl | rfl := Bool.eq_or_eq_not y x
    · rw [before _ (.inl le_rfl), Function.update_self, Function.update_self, ← conv.issued y]
      omega
    · rw [before _ (.inr apart), Function.update_of_ne (by omega),
        Function.update_of_ne (Network.not_ne x)]
      exact conv.issued !x
  · intro y
    obtain rfl | rfl := Bool.eq_or_eq_not y x
    · rw [before _ (.inl (by omega)), Function.update_of_ne (Network.not_ne y)]
      exact conv.passed y
    · rw [Bool.not_not, Function.update_self, before _ (.inl (by omega))]
      have := conv.passed !x
      rw [Bool.not_not] at this
      rw [show ({ party x with state := s' } : Party K).state.nr = (party x).state.nr from kept]
      exact this
  · rw [before _ (.inl le_rfl), number, (conv.at_ x).sent]
    exact conv.issued x

/-- **A delivery in order** is answered with its key and leaves its receiver right
behind it, or meets a full store, whatever was evicted. -/
theorem Conversation.receive (conv : Conversation line count place party issued passed used)
    (agrees : line.dh.Agrees) {y : Bool} (numbered : Numbered line count (place !y) i header key)
    {lost : Nat} (order : i = passed (!y) + lost) (near : lost ≤ maxSkip.toNat)
    {newSecret : Arr 32} (fresh : line.dh.publicKey newSecret ∉ used) {dhOutRecv dhOutSend : K}
    (agreed : line.dh.agree (party y).secret header.dh = some dhOutRecv)
    (answered : line.dh.agree newSecret header.dh = some dhOutSend) {left : List (SkippedKey K)}
    (sub : left.Sublist (party y).state.skipped) :
    (∃ s' m, Ratchet.receive line.kdf { (party y).state with skipped := left } header dhOutRecv
        dhOutSend (line.dh.publicKey newSecret) = (s', .ok key) ∧
      1 ≤ m ∧ place y ≤ m ∧ m % 2 = place y % 2 ∧ m ≤ newest place + 1 ∧
      Conversation (line.adopt (newest place + 1) newSecret) count (Function.update place y m)
        (Function.update party y ((party y).adopt s' newSecret)) issued
        (Function.update passed (!y) (i + 1)) (line.dh.publicKey newSecret :: used)) ∨
    (Ratchet.receive line.kdf { (party y).state with skipped := left } header dhOutRecv dhOutSend
      (line.dh.publicKey newSecret)).2 = .error .skippedStoreFull := by
  obtain ⟨j, below, parity, number, genuine⟩ := numbered
  obtain ⟨apart, next⟩ := conv.next_to y
  have atMost := le_newest place y
  have atMost' := le_newest place !y
  have top : newest place = max (place y) (place !y) := by
    cases y
    · exact max_comm ..
    · rfl
  have behind := conv.passed !y
  rw [Bool.not_not] at behind
  set line' := line.adopt (newest place + 1) newSecret with hline
  have distinct : line'.DistinctTo (newest place + 1) :=
    conv.distinct.adopt fun k le same => fresh (same ▸ conv.keys k le)
  have here : At line' count (place y) { (party y).state with skipped := left } :=
    ((conv.at_ y).of_sublist sub).adopt (by omega)
  have genuine' : Genuine line' count j header key := genuine.adopt (by omega)
  have inOrder : InOrder count (place y) { (party y).state with skipped := left } j header lost :=
    ⟨by simp only; omega, near⟩
  have secret : (party y).secret = line'.secret (place y) :=
    (conv.secret y).trans (Line.secret_adopt (by omega)).symm
  have own : line.pub (place y) = line'.pub (place y) := (Line.pub_adopt (by omega)).symm
  have steps : j = place y + 1 → newest place = place y + 1 := by omega
  obtain ⟨s', key', received⟩ | full := here.receive_near distinct (by omega) (by omega) (by omega)
    (by omega) genuine' inOrder dhOutRecv dhOutSend (line.dh.publicKey newSecret)
  · obtain ⟨rfl, after, count_⟩ := here.receive_inOrder agrees distinct (by omega) (by omega)
      (by omega) (by omega) genuine' (conv.unsent _ (by omega)) inOrder
      (fun onto => by rw [hline, steps onto, Line.adopt_self]) (secret ▸ agreed) answered received
    set m := if j = place y + 1 then place y + 2 else place y with hm
    have moves : (m = place y ∧ j ≤ place y) ∨
        (m = place y + 2 ∧ place (!y) = place y + 1 ∧ newest place = place y + 1) := by
      rw [hm]
      split <;> omega
    have highest : newest (Function.update place y m) = max m (place !y) := by
      cases y
      · exact max_comm ..
      · rfl
    refine .inl ⟨s', m, received, by omega, by omega, by omega, by omega, ?_, ?_, ?_, ?_, ?_, ?_,
      ?_, ?_, ?_⟩
    · intro x
      obtain rfl | rfl := Bool.eq_or_eq_not x y
      · rw [Function.update_self, ← conv.parity x]
        omega
      · rw [Function.update_of_ne (Network.not_ne y)]
        exact conv.parity !y
    · intro x
      obtain rfl | rfl := Bool.eq_or_eq_not x y
      · rw [Function.update_self, Function.update_of_ne (Network.not_ne x)]
        omega
      · rw [Bool.not_not, Function.update_self, Function.update_of_ne (Network.not_ne y)]
        omega
    · exact distinct.mono (by omega)
    · intro k le
      by_cases last : k = newest place + 1
      · rw [last, Line.pub, Line.adopt_self]
        exact List.mem_cons_self
      · rw [Line.pub_adopt last]
        exact List.mem_cons_of_mem _ (conv.keys k (by omega))
    · intro k beyond
      exact conv.unsent k (by omega)
    · intro x
      obtain rfl | rfl := Bool.eq_or_eq_not x y
      · rw [Function.update_self, Function.update_self]
        exact after
      · rw [Function.update_of_ne (Network.not_ne y), Function.update_of_ne (Network.not_ne y)]
        exact (conv.at_ !y).adopt (by omega)
    · intro x
      obtain rfl | rfl := Bool.eq_or_eq_not x y
      · rw [Function.update_self, Function.update_self, Party.adopt, State.sendingPublic, after.own,
          State.sendingPublic, (conv.at_ x).own, own]
        obtain ⟨stays, -⟩ | ⟨steps, -, high⟩ := moves
        · rw [stays, if_neg (by simp)]
          exact secret
        · have changed : line'.pub m ≠ line'.pub (place x) := fun same => by
            have := distinct _ _ (by omega) (by omega) same
            omega
          rw [if_pos changed, hline, high, steps, Line.adopt_self]
      · rw [Function.update_of_ne (Network.not_ne y), Function.update_of_ne (Network.not_ne y),
          Line.secret_adopt (by omega)]
        exact conv.secret !y
    · intro x
      obtain rfl | rfl := Bool.eq_or_eq_not x y
      · rw [Function.update_self, ← conv.issued x]
        obtain ⟨stays, -⟩ | ⟨steps, -, high⟩ := moves
        · rw [stays]
        · rw [steps, sentBefore, conv.unsent (place x + 2) (by omega), Nat.add_zero]
      · rw [Function.update_of_ne (Network.not_ne y)]
        exact conv.issued !y
    · intro x
      obtain rfl | rfl := Bool.eq_or_eq_not x y
      · rw [Function.update_of_ne (Network.not_ne x), Function.update_of_ne (Network.not_ne x),
          Function.update_of_ne (Network.not_ne x).symm]
        exact conv.passed x
      · rw [Bool.not_not, Function.update_self, Function.update_self, Function.update_self]
        show sentBefore count (m - 1) + s'.nr.toNat = i + 1
        omega
  · exact .inr full

/-- Where both parties start: the one that waits at the first place of the line. -/
def start (line : Line K) (dhOut : K) (labels : LabelSet) : Bool → Party K
  | true => ⟨initSender line.kdf line.rootSecret (line.pub 1) (line.pub 0) dhOut labels, line.secret 1⟩
  | false => ⟨initReceiver line.rootSecret (line.pub 0) labels, line.secret 0⟩

/-- Both parties as built, with nothing sent. -/
theorem start_conversation (line : Line K) (agrees : line.dh.Agrees) {dhOut : K} {labels : LabelSet}
    (agreed : line.dh.agree (line.secret 1) (line.pub 0) = some dhOut)
    (apart : line.pub 1 ≠ line.pub 0) :
    Conversation line (fun _ => 0) Bool.toNat (start line dhOut labels) (fun _ => 0) (fun _ => 0)
      [line.pub 1, line.pub 0] where
  parity x := by cases x <;> rfl
  close x := by cases x <;> decide
  distinct i j hi hj same := by
    have hi : i ≤ 1 := hi
    have hj : j ≤ 1 := hj
    interval_cases i <;> interval_cases j
    · rfl
    · exact absurd same.symm apart
    · exact absurd same apart
    · rfl
  keys k le := by
    have le : k ≤ 1 := le
    interval_cases k <;> simp
  unsent _ _ := rfl
  at_ x := by
    cases x
    · exact At.initReceiver fun _ => rfl
    · exact At.initSender agrees agreed fun _ => rfl
  secret x := by cases x <;> rfl
  issued x := by cases x <;> rfl
  passed x := by cases x <;> rfl

end Tacenta.Ratchet
