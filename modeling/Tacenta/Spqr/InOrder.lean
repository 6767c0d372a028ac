/-
# Tacenta.Spqr.InOrder -- deliveries that keep the order

Two parties on one schedule of epochs, over a wire that loses messages and keeps
the order of the rest.  A sender draws `sent e` numbers in epoch `e` and never goes
back an epoch, so `sentEarlier` numbers its messages; the receiver has come past
the epochs before `last` and `r` numbers of `last` (`Placed`).

A message whose epoch is in the receiver's window is then ahead of its chain and
no further than what was lost: it is answered with the schedule's key, or meets a
full store (`Placed.receive`).  `Conversation` says so of both parties at once.
-/
import Tacenta.Network
import Tacenta.Spqr.Lineage
import Tacenta.Spqr.Window

set_option autoImplicit false

namespace Tacenta.Spqr

variable {K : Type} {kdf : Kdf K} {sk : Bytes} {secret : UInt64 → K} {d : Direction}
  {sent : Nat → Nat}

/-! ## Positions -/

/-- How many numbers were drawn in the epochs before `e`. -/
def sentEarlier (sent : Nat → Nat) : Nat → Nat
  | 0 => 0
  | e + 1 => sentEarlier sent e + sent e

theorem sentEarlier_congr {sent' : Nat → Nat} {e : Nat} (same : ∀ k < e, sent' k = sent k) :
    sentEarlier sent' e = sentEarlier sent e := by
  induction e with
  | zero => rfl
  | succ e ih =>
      rw [sentEarlier, sentEarlier, same e (by omega), ih fun k below => same k (by omega)]

/-- An epoch is behind all that follows. -/
theorem sentEarlier_le (sent : Nat → Nat) {e e' : Nat} (below : e < e') :
    sentEarlier sent e + sent e ≤ sentEarlier sent e' := by
  induction e' with
  | zero => omega
  | succ e' ih =>
      rw [sentEarlier]
      by_cases last : e = e'
      · rw [last]
      · have := ih (by omega)
        omega

/-- Epochs nothing is sent in add nothing. -/
theorem sentEarlier_idle (sent : Nat → Nat) {e e' : Nat} (le : e ≤ e')
    (idle : ∀ k, e ≤ k → k < e' → sent k = 0) :
    sentEarlier sent e' = sentEarlier sent e := by
  induction e' with
  | zero => rw [show e = 0 by omega]
  | succ e' ih =>
      by_cases last : e = e' + 1
      · rw [last]
      · rw [sentEarlier, idle e' (by omega) (by omega), ih (by omega) fun k above below =>
          idle k above (by omega), Nat.add_zero]

namespace State

variable {s s' mid : State K} {last r : Nat}

/-! ## A party at a place -/

/-- A party that has drawn `sent e` numbers in epoch `e`, and has passed the
epochs before `last` and `r` numbers of `last`. -/
structure Placed (kdf : Kdf K) (sk : Bytes) (secret : UInt64 → K) (d : Direction)
    (sent : Nat → Nat) (last r : Nat) (s : State K) : Prop where
  direction : s.direction = d
  sound : Sound s
  onSchedule : OnSchedule kdf sk secret s
  opened : Open s
  drawn : ∀ e ch, s.sendChain e = some ch → ch.n.toNat = sent e.toNat
  reached : last ≤ s.epoch.toNat
  passed : ∀ e ch, s.receiveChain e = some ch →
    (e.toNat = last → ch.n.toNat = r) ∧ (last < e.toNat → ch.n.toNat = 0)

theorem init_placed (kdf : Kdf K) (sk : Bytes) (secret : UInt64 → K) (d : Direction) :
    Placed kdf sk secret d (fun _ => 0) 0 0 (init kdf sk d) where
  direction := rfl
  sound := init_sound kdf sk d
  onSchedule := init_onSchedule kdf sk secret d
  opened := init_open kdf sk d
  drawn e ch here := by
    obtain ⟨cs, found, chain⟩ := Option.bind_eq_some_iff.1 here
    simp only [init, findChains, Option.map_eq_some_iff, List.find?_singleton] at found
    obtain ⟨entry, only, rfl⟩ := found
    split at only
    · rw [← Option.some.inj only] at chain
      simp only [freshChains] at chain
      rw [← Option.some.inj chain]
      rfl
    · simp at only
  reached := Nat.zero_le _
  passed e ch here := by
    obtain ⟨cs, found, chain⟩ := Option.bind_eq_some_iff.1 here
    simp only [init, findChains, Option.map_eq_some_iff, List.find?_singleton] at found
    obtain ⟨entry, only, rfl⟩ := found
    split at only
    · rw [← Option.some.inj only] at chain
      simp only [freshChains] at chain
      rw [← Option.some.inj chain]
      exact ⟨fun _ => rfl, fun _ => rfl⟩
    · simp at only

/-- Dropping stored keys keeps the place. -/
theorem Placed.of_sublist (placed : Placed kdf sk secret d sent last r s) {left : List (Skipped K)}
    (sub : left.Sublist s.skipped) : Placed kdf sk secret d sent last r { s with skipped := left } where
  direction := placed.direction
  sound :=
    { valid := placed.sound.valid.of_sublist sub
      paired := placed.sound.paired
      stored := fun k member => placed.sound.stored k (sub.subset member) }
  onSchedule :=
    { root := placed.onSchedule.root
      sending := placed.onSchedule.sending
      receiving := placed.onSchedule.receiving
      stored := fun k member => placed.onSchedule.stored k (sub.subset member) }
  opened := placed.opened
  drawn := placed.drawn
  reached := placed.reached
  passed := placed.passed

/-- The schedule may change past the epoch a party is at. -/
theorem Placed.congr {secret' : UInt64 → K} (placed : Placed kdf sk secret d sent last r s)
    (agree : ∀ i : UInt64, i.toNat ≤ s.epoch.toNat → secret i = secret' i) :
    Placed kdf sk secret' d sent last r s :=
  { placed with onSchedule := placed.onSchedule.congr placed.sound.valid agree }

/-- A party that has kept to the schedule, in its state and in its answers. -/
structure Heeds (kdf : Kdf K) (sk : Bytes) (secret : UInt64 → K) (d : Direction)
    (past : List (Event K)) (s : State K) : Prop where
  direction : s.direction = d
  sound : Sound s
  onSchedule : OnSchedule kdf sk secret s
  scheduled : ∀ event ∈ past, Scheduled kdf sk secret d event

theorem Move.heeds {past now : List (Event K)} (move : Move kdf (Fed secret) s now s')
    (heeds : Heeds kdf sk secret d past s) : Heeds kdf sk secret d (past ++ now) s' := by
  obtain ⟨on, same, answers⟩ := move.onSchedule heeds.onSchedule
  refine ⟨same.trans heeds.direction, move.sound heeds.sound, on, fun event member => ?_⟩
  rcases List.mem_append.1 member with old | new
  · exact heeds.scheduled event old
  · rw [← heeds.direction]
    exact answers event new

/-- What moves keep of a party, and what they answer. -/
theorem Placed.moves (placed : Placed kdf sk secret d sent last r s) {now : List (Event K)}
    (moves : Moves kdf (Fed secret) s now s') : Heeds kdf sk secret d now s' := by
  have start : Heeds kdf sk secret d [] s :=
    ⟨placed.direction, placed.sound, placed.onSchedule, by simp⟩
  exact moves.keeps (fun _ _ _ _ move heeds => move.heeds heeds) start

/-- Below the ceiling the fold of the next epoch's output is not refused. -/
theorem maybeAdvance_answers (kdf : Kdf K) {out : Option (Output K)} (fits : FitsNext s out)
    (below : s.epoch.toNat + 1 < 2 ^ 64 - 1) : ∃ mid, s.maybeAdvance kdf out = (mid, .ok ()) := by
  cases out with
  | none => exact ⟨s, rfl⟩
  | some o =>
      have next := fits o rfl
      exact ⟨s.folded kdf o, by rw [maybeAdvance, advance_eq, if_neg (by omega), if_neg (by omega)]⟩

/-- **The fold keeps the place**, where nothing was sent in the epoch it opens. -/
theorem Placed.folds (placed : Placed kdf sk secret d sent last r s) {out : Option (Output K)}
    (fed : ∀ o, out = some o → Fed secret o) (ahead : ∀ k, s.epoch.toNat < k → sent k = 0)
    (folds : s.maybeAdvance kdf out = (mid, .ok ())) :
    Placed kdf sk secret d sent last r mid := by
  have moves := maybeAdvance_moves kdf s fed
  rw [folds] at moves
  have heeds := placed.moves moves
  have opened := placed.opened.maybeAdvance folds
  obtain ⟨-, rfl⟩ | ⟨o, -, folded⟩ := maybeAdvance_ok folds
  · exact placed
  obtain ⟨below, next, rfl⟩ := advance_ok folded
  refine ⟨heeds.direction, heeds.sound, heeds.onSchedule, opened, ?_, ?_, ?_⟩
  · intro e ch here
    rw [sendChain, findChains_folded below next] at here
    split at here
    · rename_i newest
      rw [newest, next, ahead _ (by omega)]
      simp only [freshChains, Option.bind_some] at here
      rw [← Option.some.inj here]
      rfl
    · split at here
      · exact placed.drawn e ch here
      · simp at here
  · have := placed.reached
    show last ≤ o.keyEpoch.toNat
    omega
  · intro e ch here
    rw [receiveChain, findChains_folded below next] at here
    split at here
    · rename_i newest
      simp only [freshChains, Option.bind_some] at here
      rw [← Option.some.inj here]
      refine ⟨fun same => ?_, fun _ => rfl⟩
      have := placed.reached
      rw [newest, next] at same
      omega
    · split at here
      · exact placed.passed e ch here
      · simp at here

/-! ## Sending -/

/-- **Sending** draws the schedule's next key of its epoch, below the ceilings. -/
theorem Placed.send (placed : Placed kdf sk secret d sent last r s) {out : Option (Output K)}
    (fed : ∀ o, out = some o → Fed secret o) (fits : FitsNext s out)
    (ahead : ∀ k, s.epoch.toNat < k → sent k = 0) (below : s.epoch.toNat + 1 < 2 ^ 64 - 1)
    (room : ∀ e ch, s.sendChain e = some ch → ch.n.toNat + 1 < 2 ^ 64) {e : UInt64}
    (inside : e.toNat ≤ s.epoch.toNat + out.toList.length ∧
      s.epoch.toNat + out.toList.length ≤ e.toNat + 1) :
    ∃ s' n, s.send kdf e out = (s', .ok (n, messageKeyOf kdf sk secret d e n)) ∧
      n.toNat = sent e.toNat + 1 ∧
      Placed kdf sk secret d (Function.update sent e.toNat n.toNat) last r s' := by
  obtain ⟨mid, folds⟩ := maybeAdvance_answers kdf fits below
  have moved := placed.folds fed ahead folds
  obtain ⟨epoch, -, -⟩ := maybeAdvance_frame folds
  obtain ⟨sending, receiving, found⟩ := moved.opened e ⟨by omega, by omega⟩
  have chain := sendChain_of found
  have drawn := moved.drawn e sending chain
  -- The chain is the old one below its ceiling, or fresh.
  have climbs : ∃ n, sending.n.checkedAdd 1 = some n := by
    refine ⟨sending.n + 1, ?_⟩
    rw [UInt64.checkedAdd_eq_some, UInt64.toNat_add, UInt64.toNat_one]
    have low : sending.n.toNat + 1 < 2 ^ 64 := by
      obtain ⟨-, rfl⟩ | ⟨o, -, folded⟩ := maybeAdvance_ok folds
      · exact room e sending chain
      · obtain ⟨low, next, rfl⟩ := advance_ok folded
        by_cases old : e.toNat ≤ s.epoch.toNat
        · exact room e sending (sendChain_folded_old low next old chain)
        · rw [drawn, ahead _ (by omega)]
          omega
    omega
  obtain ⟨n, climbs⟩ := climbs
  have count := next_toNat climbs
  have took : mid.sendOn kdf e = (mid.setChains e
      { send := some ⟨(kdfCk kdf sending.ck n).1, n⟩, receive := some receiving },
        .ok (n, (kdfCk kdf sending.ck n).2)) := by
    simp only [sendOn, found, climbs]
  have sends : s.send kdf e out = (mid.setChains e
      { send := some ⟨(kdfCk kdf sending.ck n).1, n⟩, receive := some receiving },
        .ok (n, (kdfCk kdf sending.ck n).2)) := by
    simp only [State.send, folds, took]
  have heeds := moved.moves (Move.send found rfl climbs).moves
  have key := (heeds.scheduled _ (List.mem_singleton_self _)).2
  refine ⟨_, n, by rw [sends, key], by rw [count, drawn], heeds.direction, heeds.sound,
    heeds.onSchedule, moved.opened.setChains e _ _, ?_, moved.reached, ?_⟩
  · intro e' ch here
    rw [sendChain_setChains] at here
    split at here
    · rename_i same
      rw [same, Function.update_self, ← Option.some.inj here]
    · rename_i other
      rw [Function.update_of_ne fun same => other (UInt64.toNat_inj.1 same)]
      exact moved.drawn e' ch here
  · intro e' ch here
    rw [receiveChain_setChains] at here
    split at here
    · rename_i same
      exact moved.passed e' ch (by rw [same, receiveChain_of found]; exact here)
    · exact moved.passed e' ch here

/-! ## Receiving -/

/-- Past the store, a receive moves the receiving chain of its epoch to its number. -/
theorem receiveFolded_chains {e n : UInt64} {key : K} (absent : s.trySkipped e n = none)
    (received : s.receiveFolded kdf e n = (s', .ok key)) :
    (∀ e', s'.sendChain e' = s.sendChain e') ∧
      ∃ ck, ∀ e', s'.receiveChain e' = if e' = e then some ⟨ck, n⟩ else s.receiveChain e' := by
  obtain stored | ⟨-, mid, skipped, taken⟩ := receiveFolded_ok received
  · rw [absent] at stored
    simp at stored
  obtain ⟨cs', ch', found', -, -, -, rfl⟩ := receiveOn_ok taken
  have skips : (∀ e', mid.sendChain e' = s.sendChain e') ∧
      ∀ e', e' ≠ e → mid.receiveChain e' = s.receiveChain e' := by
    obtain ⟨cs, ch, found, -, ⟨-, rfl⟩ | ⟨-, -, -, rfl⟩⟩ := skipMessageKeys_ok skipped
    · exact ⟨fun _ => rfl, fun _ _ => rfl⟩
    · exact ⟨sendChain_skippedTo found, fun e' other => by
        rw [receiveChain_skippedTo, if_neg other]⟩
  refine ⟨fun e' => ?_, (kdfCk kdf ch'.ck n).1, fun e' => ?_⟩
  · rw [sendChain_setChains]
    split
    · rename_i same
      rw [same, ← skips.1, sendChain_of found']
    · exact skips.1 e'
  · rw [receiveChain_setChains]
    split
    · rfl
    · rename_i other
      exact skips.2 e' other

/-- The number `n` of epoch `e` is the next one to a party that has passed `r`
numbers of `last`, up to `lost` messages that never came. -/
structure InOrder (theirs : Nat → Nat) (last r : Nat) (e n : UInt64) (lost : Nat) : Prop where
  passed : r ≤ theirs last
  positive : 1 ≤ n.toNat
  drawn : n.toNat ≤ theirs e.toNat
  place : sentEarlier theirs e.toNat + n.toNat = sentEarlier theirs last + r + lost + 1
  near : lost ≤ maxSkip.toNat

/-- **What comes in order** is ahead in its epoch, or in a later one. -/
theorem InOrder.ahead {theirs : Nat → Nat} {e n : UInt64} {lost : Nat}
    (inOrder : InOrder theirs last r e n lost) :
    (e.toNat = last ∧ n.toNat = r + lost + 1) ∨ (last < e.toNat ∧ n.toNat ≤ lost + 1) := by
  obtain ⟨passed, positive, drawn, place, -⟩ := inOrder
  rcases Nat.lt_trichotomy e.toNat last with before | same | after
  · have := sentEarlier_le theirs before
    omega
  · rw [same] at place
    exact .inl ⟨same, by omega⟩
  · have := sentEarlier_le theirs after
    exact .inr ⟨after, by omega⟩

/-- **A delivery in order** is answered with the schedule's key and leaves the
party right behind it, or meets a full store. -/
theorem Placed.receive (placed : Placed kdf sk secret d sent last r s) {out : Option (Output K)}
    (fed : ∀ o, out = some o → Fed secret o) (fits : FitsNext s out)
    (ahead : ∀ k, s.epoch.toNat < k → sent k = 0) (below : s.epoch.toNat + 1 < 2 ^ 64 - 1)
    {e n : UInt64}
    (inside : e.toNat ≤ s.epoch.toNat + out.toList.length ∧
      s.epoch.toNat + out.toList.length ≤ e.toNat + 1)
    {theirs : Nat → Nat} {lost : Nat} (inOrder : InOrder theirs last r e n lost) :
    (∃ s', s.receive kdf e out n = (s', .ok (messageKeyOf kdf sk secret d.other e n)) ∧
      Placed kdf sk secret d sent e.toNat n.toNat s') ∨
    (s.receive kdf e out n).2 = .error .skippedStoreFull := by
  obtain ⟨mid, folds⟩ := maybeAdvance_answers kdf fits below
  have moved := placed.folds fed ahead folds
  obtain ⟨epoch, -, -⟩ := maybeAdvance_frame folds
  obtain ⟨sending, receiving, found⟩ := moved.opened e ⟨by omega, by omega⟩
  have chain : mid.receiveChain e = some receiving := receiveChain_of found
  obtain ⟨current, later⟩ := moved.passed e receiving chain
  have near := inOrder.near
  have positive := inOrder.positive
  obtain ⟨absent, answers⟩ := moved.sound.receiveFolded_near kdf (n := n) chain
    (by obtain ⟨same, number⟩ | ⟨after, number⟩ := inOrder.ahead <;> omega)
    (by obtain ⟨same, number⟩ | ⟨after, number⟩ := inOrder.ahead <;> omega)
  unfold State.receive
  simp only [folds]
  obtain ⟨s', key, answered⟩ | full := answers
  · refine .inl ⟨s', ?_⟩
    have moves : Moves kdf (Fed secret) mid _ _ := receiveFolded_moves kdf mid e n
    rw [answered] at moves
    have heeds := moved.moves moves
    have scheduled : key = messageKeyOf kdf sk secret d.other e n :=
      heeds.scheduled (.received e n key) (List.mem_singleton_self _)
    obtain ⟨sends, ck, receives⟩ := receiveFolded_chains absent answered
    obtain ⟨same, -⟩ := receiveFolded_frame answered
    refine ⟨by rw [answered, scheduled], heeds.direction, heeds.sound, heeds.onSchedule,
      moved.opened.receiveFolded answered, ?_, by rw [same]; omega, ?_⟩
    · intro e' ch here
      exact moved.drawn e' ch (sends e' ▸ here)
    · intro e' ch here
      rw [receives] at here
      split at here
      · rename_i it
        rw [← Option.some.inj here]
        exact ⟨fun _ => rfl, fun beyond => absurd beyond (by rw [it]; omega)⟩
      · rename_i other
        refine ⟨fun it => absurd (UInt64.toNat_inj.1 it) other, fun beyond => ?_⟩
        refine (moved.passed e' ch here).2 ?_
        obtain ⟨now, -⟩ | ⟨after, -⟩ := inOrder.ahead <;> omega
  · exact .inr full.1

/-! ## Both parties -/

/-- The initiator sends in the first direction. -/
def side : Bool → Direction
  | true => .a2b
  | false => .b2a

theorem side_not (x : Bool) : side (!x) = (side x).other := by
  cases x <;> rfl

/-- Both parties on one schedule: `x` has sent `issued x` messages, the last in
epoch `current x`, and its peer has come past the first `passed x` of them. -/
structure Conversation (kdf : Kdf K) (sk : Bytes) (secret : UInt64 → K) (drawn : Bool → Nat → Nat)
    (current last within : Bool → Nat) (state : Bool → State K) (issued passed : Bool → Nat) :
    Prop where
  placed : ∀ x, Placed kdf sk secret (side x) (drawn x) (last x) (within x) (state x)
  ahead : ∀ x k, current x < k → drawn x k = 0
  behind : ∀ x, current x ≤ (state x).epoch.toNat
  seen : ∀ x, last (!x) ≤ current x
  issued : ∀ x, sentEarlier (drawn x) (current x) + drawn x (current x) = issued x
  passed : ∀ x, sentEarlier (drawn x) (last (!x)) + within (!x) = passed x
  within : ∀ x, within (!x) ≤ drawn x (last (!x))

/-- Epoch and number of the `i`-th message of a party that has come to `current`. -/
structure Numbered (drawn : Nat → Nat) (current i : Nat) (e n : UInt64) : Prop where
  begun : e.toNat ≤ current
  positive : 1 ≤ n.toNat
  counted : n.toNat ≤ drawn e.toNat
  place : sentEarlier drawn e.toNat + n.toNat = i + 1

variable {drawn : Bool → Nat → Nat} {current lasts withins : Bool → Nat} {state : Bool → State K}
  {issued passed : Bool → Nat} {e n : UInt64}

/-- One more message leaves the numbers of those before. -/
theorem Numbered.grow {sent : Nat → Nat} {top i : Nat} (numbered : Numbered sent top i e n)
    {e' : Nat} (later : top ≤ e') :
    Numbered (Function.update sent e' (sent e' + 1)) e' i e n where
  begun := numbered.begun.trans later
  positive := numbered.positive
  counted := by
    refine numbered.counted.trans ?_
    by_cases same : e.toNat = e'
    · rw [same, Function.update_self]
      omega
    · rw [Function.update_of_ne same]
  place := by
    rw [sentEarlier_congr fun k below => Function.update_of_ne (by
      have := numbered.begun
      omega) ..]
    exact numbered.place

theorem Conversation.congr {secret' : UInt64 → K}
    (conv : Conversation kdf sk secret drawn current lasts withins state issued passed)
    (agree : ∀ x (i : UInt64), i.toNat ≤ (state x).epoch.toNat → secret i = secret' i) :
    Conversation kdf sk secret' drawn current lasts withins state issued passed :=
  { conv with placed := fun x => (conv.placed x).congr (agree x) }

/-- **Sending** numbers the next message. -/
theorem Conversation.send
    (conv : Conversation kdf sk secret drawn current lasts withins state issued passed) {x : Bool}
    {out : Option (Output K)} (fed : ∀ o, out = some o → Fed secret o) (fits : FitsNext (state x) out)
    (below : (state x).epoch.toNat + 1 < 2 ^ 64 - 1)
    (room : ∀ e ch, (state x).sendChain e = some ch → ch.n.toNat + 1 < 2 ^ 64)
    (inside : e.toNat ≤ (state x).epoch.toNat + out.toList.length ∧
      (state x).epoch.toNat + out.toList.length ≤ e.toNat + 1) (onward : current x ≤ e.toNat) :
    ∃ s' n, (state x).send kdf e out = (s', .ok (n, messageKeyOf kdf sk secret (side x) e n)) ∧
      Conversation kdf sk secret
        (Function.update drawn x (Function.update (drawn x) e.toNat (drawn x e.toNat + 1)))
        (Function.update current x e.toNat) lasts withins (Function.update state x s')
        (Function.update issued x (issued x + 1)) passed ∧
      Numbered (Function.update (drawn x) e.toNat (drawn x e.toNat + 1)) e.toNat (issued x) e n := by
  obtain ⟨s', n, sent, number, placed⟩ := (conv.placed x).send fed fits
    (fun k beyond => conv.ahead x k (by have := conv.behind x; omega)) below room inside
  obtain ⟨epoch, -, -⟩ := send_frame sent
  rw [number] at placed
  have before : ∀ k, k ≤ e.toNat →
      sentEarlier (Function.update (drawn x) e.toNat (drawn x e.toNat + 1)) k =
        sentEarlier (drawn x) k :=
    fun k early => sentEarlier_congr fun i below => Function.update_of_ne (by omega) ..
  -- Between the last epoch sent in and this one nothing was.
  have total : sentEarlier (drawn x) e.toNat + drawn x e.toNat = issued x := by
    have := conv.issued x
    by_cases same : current x = e.toNat
    · rw [← same]
      exact this
    · have idle := sentEarlier_idle (drawn x) (show current x + 1 ≤ e.toNat by omega)
        fun k above _ => conv.ahead x k (by omega)
      rw [idle, sentEarlier, conv.ahead x e.toNat (by omega)]
      exact this
  refine ⟨s', n, sent, ⟨fun y => ?_, fun y k beyond => ?_, fun y => ?_, fun y => ?_, fun y => ?_,
    fun y => ?_, fun y => ?_⟩, le_rfl, by omega, ?_, ?_⟩
  · by_cases it : y = x
    · rw [it, Function.update_self, Function.update_self]
      exact placed
    · rw [Function.update_of_ne it, Function.update_of_ne it]
      exact conv.placed y
  · by_cases it : y = x
    · rw [it, Function.update_self] at beyond ⊢
      rw [Function.update_of_ne (by omega)]
      exact conv.ahead x k (by omega)
    · rw [Function.update_of_ne it] at beyond ⊢
      exact conv.ahead y k beyond
  · by_cases it : y = x
    · rw [it, Function.update_self, Function.update_self]
      omega
    · rw [Function.update_of_ne it, Function.update_of_ne it]
      exact conv.behind y
  · by_cases it : y = x
    · rw [it, Function.update_self]
      exact (conv.seen x).trans onward
    · rw [Function.update_of_ne it]
      exact conv.seen y
  · by_cases it : y = x
    · rw [it, Function.update_self, Function.update_self, Function.update_self, before _ le_rfl,
        Function.update_self]
      omega
    · rw [Function.update_of_ne it, Function.update_of_ne it, Function.update_of_ne it]
      exact conv.issued y
  · by_cases it : y = x
    · rw [it, Function.update_self, before _ ((conv.seen x).trans onward)]
      exact conv.passed x
    · rw [Function.update_of_ne it]
      exact conv.passed y
  · by_cases it : y = x
    · rw [it, Function.update_self]
      refine (conv.within x).trans ?_
      by_cases same : lasts (!x) = e.toNat
      · rw [same, Function.update_self]
        omega
      · rw [Function.update_of_ne same]
    · rw [Function.update_of_ne it]
      exact conv.within y
  · rw [Function.update_self]
    omega
  · rw [before _ le_rfl]
    omega

/-- **A delivery in order** is answered with its key and leaves its receiver right
behind it, or meets a full store. -/
theorem Conversation.receive
    (conv : Conversation kdf sk secret drawn current lasts withins state issued passed) {y : Bool}
    {out : Option (Output K)} (fed : ∀ o, out = some o → Fed secret o) (fits : FitsNext (state y) out)
    (below : (state y).epoch.toNat + 1 < 2 ^ 64 - 1) {i lost : Nat}
    (numbered : Numbered (drawn !y) (current !y) i e n) (order : i = passed (!y) + lost)
    (near : lost ≤ maxSkip.toNat)
    (inside : e.toNat ≤ (state y).epoch.toNat + out.toList.length ∧
      (state y).epoch.toNat + out.toList.length ≤ e.toNat + 1) {left : List (Skipped K)}
    (sub : left.Sublist (state y).skipped) :
    (∃ s', State.receive kdf { state y with skipped := left } e out n =
        (s', .ok (messageKeyOf kdf sk secret (side !y) e n)) ∧
      Conversation kdf sk secret drawn current (Function.update lasts y e.toNat)
        (Function.update withins y n.toNat) (Function.update state y s') issued
        (Function.update passed (!y) (i + 1))) ∨
    (State.receive kdf { state y with skipped := left } e out n).2 = .error .skippedStoreFull := by
  have passed_ := conv.passed !y
  have within_ := conv.within !y
  rw [Bool.not_not] at passed_ within_
  have place := numbered.place
  have inOrder : InOrder (drawn !y) (lasts y) (withins y) e n lost :=
    ⟨within_, numbered.positive, numbered.counted, by omega, near⟩
  obtain ⟨s', received, placed⟩ | full := ((conv.placed y).of_sublist sub).receive fed fits
    (fun k (beyond : (state y).epoch.toNat < k) => conv.ahead y k (by have := conv.behind y; omega))
      below inside inOrder
  · obtain ⟨epoch, -, -⟩ := receive_frame received
    rw [← side_not] at received
    refine .inl ⟨s', received, fun x => ?_, conv.ahead, fun x => ?_, fun x => ?_, conv.issued,
      fun x => ?_, fun x => ?_⟩
    · by_cases it : x = y
      · rw [it, Function.update_self, Function.update_self, Function.update_self]
        exact placed
      · rw [Function.update_of_ne it, Function.update_of_ne it, Function.update_of_ne it]
        exact conv.placed x
    · by_cases it : x = y
      · rw [it, Function.update_self, epoch]
        exact (conv.behind y).trans (Nat.le_add_right ..)
      · rw [Function.update_of_ne it]
        exact conv.behind x
    · by_cases it : (!x) = y
      · rw [it, Function.update_self, show x = !y by rw [← it, Bool.not_not]]
        exact numbered.begun
      · rw [Function.update_of_ne it]
        exact conv.seen x
    · by_cases it : (!x) = y
      · obtain rfl : x = !y := by rw [← it, Bool.not_not]
        rw [Bool.not_not, Function.update_self, Function.update_self, Function.update_self]
        exact place
      · rw [Function.update_of_ne it, Function.update_of_ne it,
          Function.update_of_ne fun same => it (by rw [same, Bool.not_not])]
        exact conv.passed x
    · by_cases it : (!x) = y
      · obtain rfl : x = !y := by rw [← it, Bool.not_not]
        rw [Bool.not_not, Function.update_self, Function.update_self]
        exact numbered.counted
      · rw [Function.update_of_ne it, Function.update_of_ne it]
        exact conv.within x
  · exact .inr full

/-- Both parties as built, with nothing sent. -/
theorem start_conversation (kdf : Kdf K) (sk : Bytes) (secret : UInt64 → K) :
    Conversation kdf sk secret (fun _ _ => 0) (fun _ => 0) (fun _ => 0) (fun _ => 0)
      (fun x => init kdf sk (side x)) (fun _ => 0) (fun _ => 0) where
  placed x := init_placed kdf sk secret (side x)
  ahead _ _ _ := rfl
  behind _ := Nat.zero_le _
  seen _ := le_rfl
  issued _ := rfl
  passed _ := rfl
  within _ := le_rfl

end State

end Tacenta.Spqr
