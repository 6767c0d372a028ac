/-
# Tacenta.Spqr.Agreement -- two sparse ratchets over one sequence of secrets

Two parties start from one secret in opposite directions and fold the same
agreement outputs, each at its own moment.  `epochKeys` is the schedule they
share: the root key and the two chain keys of every epoch, of which each side
sends on one and receives on the other (`messageKeyOf`).

`OnSchedule` says that a party's root key, its chains and its stored keys are
the schedule's; every move keeps it, and every key a call answers is then the
schedule's.  `sparse_agreement` draws the two consequences for an interleaving:
keys agree, and a first delivery inside the bounds is answered.
-/
import Tacenta.Sample
import Tacenta.Spqr.Runs

set_option autoImplicit false

namespace Tacenta.Spqr

variable {K : Type} {kdf : Kdf K}

/-- The direction of the other side. -/
def Direction.other : Direction → Direction
  | .a2b => .b2a
  | .b2a => .a2b

@[simp] theorem Direction.other_other (d : Direction) : d.other.other = d := by
  cases d <;> rfl

theorem Direction.assign_other (d : Direction) (k1 k2 : K) :
    (d.other.assign k1 k2).1 = (d.assign k1 k2).2 := by
  cases d <;> rfl

/-! ## The schedule -/

/-- The root key and both chain keys of an epoch, from the outputs' secrets. -/
def epochKeys (kdf : Kdf K) (sk : Bytes) (secret : UInt64 → K) : Nat → K × K × K
  | 0 => kdfInit kdf sk
  | e + 1 => kdfRk kdf (epochKeys kdf sk secret e).1 (secret (UInt64.ofNat (e + 1)))

/-- The first key of the chain a direction sends on in an epoch. -/
def chainKeyOf (kdf : Kdf K) (sk : Bytes) (secret : UInt64 → K) (d : Direction) (e : UInt64) : K :=
  (d.assign (epochKeys kdf sk secret e.toNat).2.1 (epochKeys kdf sk secret e.toNat).2.2).1

/-- The key of the message a direction numbers `n` in an epoch. -/
def messageKeyOf (kdf : Kdf K) (sk : Bytes) (secret : UInt64 → K) (d : Direction) (e n : UInt64) :
    K :=
  messageFrom kdf (chainKeyOf kdf sk secret d e) 0 (n.toNat - 1)

theorem epochKeys_next (kdf : Kdf K) (sk : Bytes) (secret : UInt64 → K) {e : UInt64} {n : Nat}
    (next : e.toNat = n + 1) :
    epochKeys kdf sk secret e.toNat =
      kdfRk kdf (epochKeys kdf sk secret n).1 (secret e) := by
  rw [next, epochKeys, ← next, UInt64.ofNat_toNat]

/-- One more step along a chain that is `i` steps from its first key. -/
theorem kdfCk_chainFrom {ck start : K} {i n : UInt64} (place : ck = chainFrom kdf start 0 i.toNat)
    (next : n.toNat = i.toNat + 1) :
    (kdfCk kdf ck n).1 = chainFrom kdf start 0 n.toNat ∧
      (kdfCk kdf ck n).2 = messageFrom kdf start 0 (n.toNat - 1) := by
  have number : n = UInt64.ofNat (0 + i.toNat + 1) := by
    rw [Nat.zero_add, ← next, UInt64.ofNat_toNat]
  have before : n.toNat - 1 = i.toNat := by omega
  rw [before, next, messageFrom, chainFrom, ← place, ← number]
  exact ⟨rfl, rfl⟩

namespace State

variable {s s' : State K} {now : List (Event K)} {sk : Bytes} {secret : UInt64 → K}

/-! ## Keeping to the schedule -/

/-- A party's secrets are the schedule's. -/
structure OnSchedule (kdf : Kdf K) (sk : Bytes) (secret : UInt64 → K) (s : State K) : Prop where
  root : s.rk = (epochKeys kdf sk secret s.epoch.toNat).1
  sending : ∀ e ch, s.sendChain e = some ch →
    ch.ck = chainFrom kdf (chainKeyOf kdf sk secret s.direction e) 0 ch.n.toNat
  receiving : ∀ e ch, s.receiveChain e = some ch →
    ch.ck = chainFrom kdf (chainKeyOf kdf sk secret s.direction.other e) 0 ch.n.toNat
  stored : ∀ k ∈ s.skipped, k.key = messageKeyOf kdf sk secret s.direction.other k.epoch k.n

/-- What a party of this direction answers is the schedule's. -/
def Scheduled (kdf : Kdf K) (sk : Bytes) (secret : UInt64 → K) (d : Direction) : Event K → Prop
  | .sent e n key => 1 ≤ n.toNat ∧ key = messageKeyOf kdf sk secret d e n
  | .received e n key => key = messageKeyOf kdf sk secret d.other e n
  | .evicted _ _ => True

/-- The output is the sequence's at its epoch. -/
def Fed (secret : UInt64 → K) (o : Output K) : Prop := o.key = secret o.keyEpoch

theorem init_onSchedule (kdf : Kdf K) (sk : Bytes) (secret : UInt64 → K) (direction : Direction) :
    OnSchedule kdf sk secret (init kdf sk direction) := by
  have only : ∀ {e : UInt64} {cs : Chains K}, (init kdf sk direction).findChains e = some cs →
      e = 0 ∧ cs = freshChains direction (kdfInit kdf sk).2.1 (kdfInit kdf sk).2.2 := by
    intro e cs found
    have member := mem_of_findChains found
    simp only [init, List.mem_singleton, Prod.mk.injEq] at member
    exact member
  refine ⟨rfl, ?_, ?_, by simp [init]⟩
  · intro e ch here
    obtain ⟨cs, found, chain⟩ := Option.bind_eq_some_iff.1 here
    obtain ⟨rfl, rfl⟩ := only found
    rw [freshChains, Option.some.injEq] at chain
    rw [← chain]
    rfl
  · intro e ch here
    obtain ⟨cs, found, chain⟩ := Option.bind_eq_some_iff.1 here
    obtain ⟨rfl, rfl⟩ := only found
    rw [freshChains, Option.some.injEq] at chain
    rw [← chain, chainKeyOf]
    exact (Direction.assign_other direction _ _).symm

/-- The fold of a fed output opens the schedule's next epoch. -/
theorem OnSchedule.folded (on : OnSchedule kdf sk secret s) {out : Output K} (fed : Fed secret out)
    (below : s.epoch.toNat + 1 < 2 ^ 64 - 1) (next : out.keyEpoch.toNat = s.epoch.toNat + 1) :
    OnSchedule kdf sk secret (s.folded kdf out) := by
  have opened : kdfRk kdf s.rk out.key = epochKeys kdf sk secret out.keyEpoch.toNat := by
    rw [epochKeys_next kdf sk secret next, on.root, fed]
  refine ⟨?_, ?_, ?_, ?_⟩
  · rw [← show kdfRk kdf s.rk out.key = epochKeys kdf sk secret (s.folded kdf out).epoch.toNat
      from opened]
    rfl
  · intro e ch here
    obtain ⟨cs, found, chain⟩ := Option.bind_eq_some_iff.1 here
    rw [findChains_folded below next] at found
    split at found
    · rename_i newest
      rw [← Option.some.inj found, freshChains, Option.some.injEq, opened] at chain
      rw [← chain, newest]
      rfl
    · split at found
      · exact on.sending e ch (by rw [sendChain_of found, chain])
      · simp at found
  · intro e ch here
    obtain ⟨cs, found, chain⟩ := Option.bind_eq_some_iff.1 here
    rw [findChains_folded below next] at found
    split at found
    · rename_i newest
      rw [← Option.some.inj found, freshChains, Option.some.injEq, opened] at chain
      rw [← chain, newest, chainKeyOf]
      exact (Direction.assign_other s.direction _ _).symm
    · split at found
      · exact on.receiving e ch (by rw [receiveChain_of found, chain])
      · simp at found
  · intro k member
    exact on.stored k (List.mem_filter.1 member).1

/-- The stored keys of a skip are the schedule's. -/
theorem OnSchedule.mem_skippedTo (on : OnSchedule kdf sk secret s) {e upto : UInt64}
    {cs : Chains K} {ch : Chain K} (here : s.receiveChain e = some ch) (ahead : ch.n < upto)
    {k : Skipped K} (member : k ∈ (s.skippedTo kdf e cs ch upto).skipped) :
    k.key = messageKeyOf kdf sk secret s.direction.other k.epoch k.n := by
  rcases List.mem_append.1 member with old | new
  · exact on.stored k (List.mem_filter.1 old).1
  · obtain ⟨i, inside, rfl⟩ := List.mem_map.1 new
    rw [List.mem_range] at inside
    have top := upto.toNat_lt
    rw [UInt64.lt_iff_toNat_lt] at ahead
    have number : (UInt64.ofNat (ch.n.toNat + i + 1)).toNat - 1 = 0 + ch.n.toNat + i := by
      rw [UInt64.toNat_ofNat']
      omega
    have along : messageFrom kdf (chainFrom kdf (chainKeyOf kdf sk secret s.direction.other e) 0
        ch.n.toNat) (0 + ch.n.toNat) i = _ := messageFrom_add _ _ _ _
    rw [← on.receiving e ch here, Nat.zero_add] at along
    rw [messageKeyOf, number, Nat.zero_add]
    exact along

/-- **Every move keeps to the schedule**, and answers its keys. -/
theorem Move.onSchedule (move : Move kdf (Fed secret) s now s') (on : OnSchedule kdf sk secret s) :
    OnSchedule kdf sk secret s' ∧ s'.direction = s.direction ∧
      ∀ event ∈ now, Scheduled kdf sk secret s.direction event := by
  cases move with
  | fold fed below next => exact ⟨on.folded fed below next, rfl, by simp⟩
  | @send e n cs ch found chain climbs =>
      obtain ⟨stepped, key⟩ :=
        kdfCk_chainFrom (on.sending e ch (by rw [sendChain_of found, chain])) (next_toNat climbs)
      refine ⟨⟨on.root, ?_, ?_, on.stored⟩, rfl, ?_⟩
      · intro e' ch' here
        rw [sendChain_setChains] at here
        split at here
        · rename_i same
          rw [← Option.some.inj here, same]
          exact stepped
        · exact on.sending e' ch' here
      · intro e' ch' here
        rw [receiveChain_setChains] at here
        split at here
        · rename_i same
          exact on.receiving e' ch' (by rw [same, receiveChain_of found]; exact here)
        · exact on.receiving e' ch' here
      · intro event member
        rw [List.mem_singleton.1 member]
        exact ⟨by rw [next_toNat climbs]; omega, key⟩
  | @skip e upto cs ch found chain ahead room =>
      have here : s.receiveChain e = some ch := by rw [receiveChain_of found, chain]
      refine ⟨⟨on.root, ?_, ?_, fun k member => on.mem_skippedTo here ahead member⟩, rfl, by simp⟩
      · intro e' ch' here'
        rw [sendChain_skippedTo found] at here'
        exact on.sending e' ch' here'
      · intro e' ch' here'
        rw [receiveChain_skippedTo] at here'
        split at here'
        · rename_i same
          rw [UInt64.lt_iff_toNat_lt] at ahead
          have total : ch.n.toNat + (upto.toNat - ch.n.toNat) = upto.toNat := by omega
          rw [← Option.some.inj here', same]
          show chainFrom kdf ch.ck ch.n.toNat (upto.toNat - ch.n.toNat) = _
          rw [on.receiving e ch here]
          have along : chainFrom kdf (chainFrom kdf (chainKeyOf kdf sk secret s.direction.other e) 0
              ch.n.toNat) (0 + ch.n.toNat) (upto.toNat - ch.n.toNat) = _ := chainFrom_add _ _ _ _
          rw [total, Nat.zero_add] at along
          exact along
        · exact on.receiving e' ch' here'
  | @serve e n k left taken =>
      obtain ⟨member, matches_⟩ := takeFirst_mem taken
      simp only [named, decide_eq_true_eq] at matches_
      refine ⟨⟨on.root, on.sending, on.receiving, fun k' member' =>
        on.stored k' ((takeFirst_sublist taken).subset member')⟩, rfl, ?_⟩
      intro event here
      rw [List.mem_singleton.1 here, ← matches_.1, ← matches_.2]
      exact on.stored k member
  | @receive e n cs ch found chain climbs =>
      obtain ⟨stepped, key⟩ := kdfCk_chainFrom
        (on.receiving e ch (by rw [receiveChain_of found, chain])) (next_toNat climbs)
      refine ⟨⟨on.root, ?_, ?_, on.stored⟩, rfl, ?_⟩
      · intro e' ch' here
        rw [sendChain_setChains] at here
        split at here
        · rename_i same
          exact on.sending e' ch' (by rw [same, sendChain_of found]; exact here)
        · exact on.sending e' ch' here
      · intro e' ch' here
        rw [receiveChain_setChains] at here
        split at here
        · rename_i same
          rw [← Option.some.inj here, same]
          exact stepped
        · exact on.receiving e' ch' here
      · intro event member
        rw [List.mem_singleton.1 member]
        exact key
  | evict count =>
      refine ⟨⟨on.root, on.sending, on.receiving, fun k member =>
        on.stored k ((List.drop_sublist _ _).subset member)⟩, rfl, ?_⟩
      intro event member
      obtain ⟨k, -, rfl⟩ := List.mem_map.1 member
      trivial

/-! ## Deliveries inside the bounds -/

/-- A receive past its fold, of a number ahead of the chain and within the bound,
is answered, or would leave more keys than the store has room for. -/
theorem Sound.receiveFolded_near (sound : Sound s) (kdf : Kdf K) {e n : UInt64} {ch : Chain K}
    (here : s.receiveChain e = some ch) (ahead : ch.n.toNat < n.toNat)
    (near : n.toNat ≤ ch.n.toNat + 1 + maxSkip.toNat) :
    s.trySkipped e n = none ∧ ((∃ s' key, s.receiveFolded kdf e n = (s', .ok key)) ∨
      (s.receiveFolded kdf e n).2 = .error .skippedStoreFull ∧
        maxSkippedStore < s.skipped.length + (n.toNat - 1 - ch.n.toNat)) := by
  have absent : s.trySkipped e n = none := by
    rw [trySkipped, Option.map_eq_none_iff, takeFirst_eq_none]
    intro k member
    obtain ⟨ch', chain, -, behind⟩ := sound.stored k member
    by_contra taken
    simp only [Bool.not_eq_false, named, decide_eq_true_eq] at taken
    rw [taken.1, here] at chain
    rw [taken.2, ← Option.some.inj chain] at behind
    omega
  refine ⟨absent, ?_⟩
  unfold receiveFolded
  simp only [absent]
  obtain ⟨cs, found, chain⟩ := Option.bind_eq_some_iff.1 here
  have upto : (n.saturatingSub 1).toNat = n.toNat - 1 := by
    rw [UInt64.toNat_saturatingSub, UInt64.toNat_one]
  -- A chain that ends right before `n` answers it.
  have answers : ∀ {mid : State K} {cs' : Chains K} {ch' : Chain K}, mid.findChains e = some cs' →
      cs'.receive = some ch' → ch'.n.toNat + 1 = n.toNat →
      ∃ s' key, mid.receiveOn kdf e n = (s', .ok key) := by
    intro mid cs' ch' found' chain' last
    have climbs : ch'.n.checkedAdd 1 = some n := by
      rw [UInt64.checkedAdd_eq_some, UInt64.toNat_one]
      exact last.symm
    simp only [receiveOn, found', chain', climbs, ne_eq, not_true_eq_false, if_false]
    exact ⟨_, _, rfl⟩
  unfold skipMessageKeys
  simp only [found, chain]
  by_cases behind : n.saturatingSub 1 ≤ ch.n
  · rw [if_pos behind]
    rw [UInt64.le_iff_toNat_le, upto] at behind
    exact .inl (answers found chain (by omega))
  · rw [if_neg behind]
    rw [UInt64.le_iff_toNat_le, upto] at behind
    have count : (n.saturatingSub 1 - ch.n).toNat = n.toNat - 1 - ch.n.toNat := by
      rw [UInt64.toNat_sub_of_le _ _ (UInt64.le_iff_toNat_le.2 (by omega)), upto]
    have few : ¬ n.saturatingSub 1 - ch.n > maxSkip := by
      rw [gt_iff_lt, UInt64.lt_iff_toNat_lt, count]
      omega
    rw [if_neg few, sound.purge found chain, count]
    by_cases full : s.skipped.length + (n.toNat - 1 - ch.n.toNat) > maxSkippedStore
    · rw [if_pos full]
      exact .inr ⟨rfl, full⟩
    · rw [if_neg full]
      exact .inl (answers (findChains_setChains_self _ _) rfl (by
        simp only [upto]
        omega))

/-- A receive past its fold is answered when the key is stored, or the number is
ahead of the chain and within the two bounds. -/
theorem Sound.receiveFolded_answers (sound : Sound s) (kdf : Kdf K) {e n : UInt64} {ch : Chain K}
    (here : s.receiveChain e = some ch)
    (due : ch.n.toNat < n.toNat ∨ ∃ k ∈ s.skipped, k.epoch = e ∧ k.n = n)
    (near : n.toNat ≤ ch.n.toNat + 1 + maxSkip.toNat)
    (room : s.skipped.length + (n.toNat - 1 - ch.n.toNat) ≤ maxSkippedStore) :
    ∃ s' key, s.receiveFolded kdf e n = (s', .ok key) := by
  cases stored : s.trySkipped e n with
  | some found =>
      refine ⟨found.2, found.1, ?_⟩
      unfold receiveFolded
      rw [stored]
  | none =>
      have ahead : ch.n.toNat < n.toNat := by
        rcases due with ahead | ⟨k, member, epoch, number⟩
        · exact ahead
        · rw [trySkipped, Option.map_eq_none_iff, takeFirst_eq_none] at stored
          have := stored k member
          simp [named, epoch, number] at this
      obtain ⟨-, answered | ⟨-, full⟩⟩ := sound.receiveFolded_near kdf here ahead near
      · exact answered
      · omega

/-! ## Two parties -/

/-- What holds of a party along its run. -/
structure Party (kdf : Kdf K) (sk : Bytes) (secret : UInt64 → K) (d : Direction)
    (past : List (Event K)) (s : State K) : Prop where
  direction : s.direction = d
  sound : Sound s
  onSchedule : OnSchedule kdf sk secret s
  scheduled : ∀ event ∈ past, Scheduled kdf sk secret d event
  accounted : Accounted past s

theorem Move.party {d : Direction} {past : List (Event K)} (move : Move kdf (Fed secret) s now s')
    (party : Party kdf sk secret d past s) : Party kdf sk secret d (past ++ now) s' := by
  obtain ⟨on, direction, scheduled⟩ := move.onSchedule party.onSchedule
  refine ⟨direction.trans party.direction, move.sound party.sound, on, ?_,
    move.accounted party.sound party.accounted⟩
  intro event member
  rcases List.mem_append.1 member with old | new
  · exact party.scheduled event old
  · rw [← party.direction]
    exact scheduled event new

theorem run_party (kdf : Kdf K) (sk : Bytes) (secret : UInt64 → K) (d : Direction)
    {calls : List (Call K)} (fed : ∀ c ∈ calls, ∀ o, c.output = some o → Fed secret o) :
    Party kdf sk secret d ((call kdf).run (init kdf sk d) calls).2
      ((call kdf).run (init kdf sk d) calls).1 := by
  have start : Party kdf sk secret d [] (init kdf sk d) :=
    ⟨rfl, init_sound kdf sk d, init_onSchedule kdf sk secret d, by simp, init_accounted kdf sk d⟩
  exact run_keeps (fun _ _ _ _ move party => move.party party) start fed

/-- A receive inside the bounds is answered, with the schedule's key. -/
theorem Party.receive_answers {d : Direction} {past : List (Event K)}
    (party : Party kdf sk secret d past s) {e n : UInt64} {out : Option (Output K)}
    (fed : ∀ o, out = some o → Fed secret o) (positive : 1 ≤ n.toNat)
    (first : (e, n) ∉ past.filterMap Event.receivedPair) (held : Event.evicted e n ∉ past)
    {mid : State K} (folds : s.maybeAdvance kdf out = (mid, .ok ())) {count : UInt64}
    (opened : mid.receiveCount e = some count)
    (near : n.toNat ≤ count.toNat + 1 + maxSkip.toNat)
    (room : mid.skipped.length + (n.toNat - 1 - count.toNat) ≤ maxSkippedStore) :
    ∃ s', s.receive kdf e out n = (s', .ok (messageKeyOf kdf sk secret d.other e n)) := by
  have step : ∀ {past now : List (Event K)} {s s' : State K}, Moves kdf (Fed secret) s now s' →
      Party kdf sk secret d past s → Party kdf sk secret d (past ++ now) s' :=
    fun moves here => moves.keeps (fun _ _ _ _ move kept => move.party kept) here
  have moved : Party kdf sk secret d (past ++ []) mid := by
    have folding := maybeAdvance_moves kdf s fed
    rw [folds] at folding
    exact step folding party
  rw [List.append_nil] at moved
  obtain ⟨ch, here, rfl⟩ := receiveCount_eq_some.1 opened
  have due : ch.n.toNat < n.toNat ∨ ∃ k ∈ mid.skipped, k.epoch = e ∧ k.n = n := by
    by_cases passed : n.toNat ≤ ch.n.toNat
    · rcases moved.accounted e ch n here positive passed with answered | gone | still
      · exact absurd answered first
      · exact absurd gone held
      · exact .inr still
    · exact .inl (Nat.lt_of_not_le passed)
  obtain ⟨s', key, answered⟩ := moved.sound.receiveFolded_answers kdf here due near room
  have scheduled := (step (receiveFolded_moves kdf mid e n) moved).scheduled
  rw [answered] at scheduled
  have key_eq : key = messageKeyOf kdf sk secret d.other e n :=
    scheduled (.received e n key) (List.mem_append_right _ (List.mem_singleton_self _))
  refine ⟨s', ?_⟩
  rw [receive, folds]
  simp only [answered, key_eq]

/-- **Two-party agreement of the sparse ratchet.**  In every interleaving of two
parties started from one secret in opposite directions and fed one sequence of
outputs, a receive answers the key the other side drew for its pair, and the
first delivery of a pair drawn is answered while its epoch is open, its number
in reach, the store has room and its key has not been evicted. -/
theorem sparse_agreement (kdf : Kdf K) (sk : Bytes) (secret : UInt64 → K)
    (calls : List (Direction × Call K))
    (fed : ∀ c ∈ calls, ∀ o, c.2.output = some o → Fed secret o) :
    (∀ d e n mk key,
      (d, Event.sent e n mk) ∈ ((call kdf).parallel.run (init kdf sk) calls).2 →
      (d.other, Event.received e n key) ∈ ((call kdf).parallel.run (init kdf sk) calls).2 →
        key = mk) ∧
    ∀ d e n mk, (d, Event.sent e n mk) ∈ ((call kdf).parallel.run (init kdf sk) calls).2 →
      (∀ key, (d.other, Event.received e n key) ∉
        ((call kdf).parallel.run (init kdf sk) calls).2) →
      (d.other, Event.evicted e n) ∉ ((call kdf).parallel.run (init kdf sk) calls).2 →
      ∀ out mid count, (∀ o, out = some o → Fed secret o) →
        (((call kdf).parallel.run (init kdf sk) calls).1 d.other).maybeAdvance kdf out =
          (mid, .ok ()) →
        mid.receiveCount e = some count →
        n.toNat ≤ count.toNat + 1 + maxSkip.toNat →
        mid.skipped.length + (n.toNat - 1 - count.toNat) ≤ maxSkippedStore →
          ∃ s', (((call kdf).parallel.run (init kdf sk) calls).1 d.other).receive kdf e out n =
            (s', .ok mk) := by
  -- Each party runs its own calls; the other's leave it alone.
  have side : ∀ d, Party kdf sk secret d
      (Machine.ofParty d ((call kdf).parallel.run (init kdf sk) calls).2)
      (((call kdf).parallel.run (init kdf sk) calls).1 d) := by
    intro d
    obtain ⟨left, answered⟩ := Machine.parallel_run (call kdf) (init kdf sk) calls d
    rw [left, answered]
    refine run_party kdf sk secret d ?_
    intro c member
    exact fed (d, c) (Machine.mem_ofParty.1 member)
  have drawn : ∀ d e n mk,
      (d, Event.sent e n mk) ∈ ((call kdf).parallel.run (init kdf sk) calls).2 →
        1 ≤ n.toNat ∧ mk = messageKeyOf kdf sk secret d e n := by
    intro d e n mk sent
    exact (side d).scheduled (.sent e n mk) (Machine.mem_ofParty.2 sent)
  refine ⟨?_, ?_⟩
  · intro d e n mk key sent received
    have theirs : key = messageKeyOf kdf sk secret d.other.other e n :=
      (side d.other).scheduled (.received e n key) (Machine.mem_ofParty.2 received)
    rw [Direction.other_other] at theirs
    rw [theirs, (drawn d e n mk sent).2]
  · intro d e n mk sent first held out mid count fedOut folds opened near room
    obtain ⟨positive, rfl⟩ := drawn d e n mk sent
    have new : (e, n) ∉ (Machine.ofParty d.other
        ((call kdf).parallel.run (init kdf sk) calls).2).filterMap Event.receivedPair := by
      intro answered
      obtain ⟨event, member, pair⟩ := List.mem_filterMap.1 answered
      cases event with
      | received e' n' key =>
          simp only [Event.receivedPair, Option.some.injEq, Prod.mk.injEq] at pair
          rw [pair.1, pair.2] at member
          exact first key (Machine.mem_ofParty.1 member)
      | sent | evicted => simp [Event.receivedPair] at pair
    have kept : Event.evicted e n ∉ Machine.ofParty d.other
        ((call kdf).parallel.run (init kdf sk) calls).2 :=
      fun gone => held (Machine.mem_ofParty.1 gone)
    have answers := (side d.other).receive_answers fedOut positive new kept folds opened near room
    rw [Direction.other_other] at answers
    exact answers

namespace Folding

/-- The secret of the first epoch, as both parties fold it. -/
def output : Output Secret := ⟨1, Vector.replicate 32 9⟩

/-- Each folds it with a message of the opening epoch, and Alice sends in the new one. -/
def calls : List (Direction × Call Secret) :=
  [(.a2b, .send 0 (some output)), (.b2a, .receive 0 (some output) 1), (.a2b, .send 1 none),
    (.b2a, .receive 1 none 1)]

/-- What the two answer. -/
def events : List (Direction × Event Secret) :=
  ((call Sample.kdf).parallel.run (init Sample.kdf []) calls).2

/-- Bob receives what Alice sent in the epoch both opened. -/
theorem sparse_agreement_sample : ∃ mk,
    (Direction.a2b, Event.sent 1 1 mk) ∈ events ∧ (Direction.b2a, Event.received 1 1 mk) ∈ events := by
  obtain ⟨mk, sent⟩ : ∃ mk, (Direction.a2b, Event.sent 1 1 mk) ∈ events :=
    ⟨_, .tail _ (.tail _ (.head _))⟩
  obtain ⟨key, received⟩ : ∃ key, (Direction.b2a, Event.received 1 1 key) ∈ events :=
    ⟨_, .tail _ (.tail _ (.tail _ (.head _)))⟩
  have agree := (sparse_agreement Sample.kdf [] (fun _ => Vector.replicate 32 9) calls
    (by simp [calls, Call.output, Fed, output])).1
  have same : key = mk := agree .a2b 1 1 mk key sent received
  exact ⟨mk, sent, same ▸ received⟩

end Folding

end State

end Tacenta.Spqr
