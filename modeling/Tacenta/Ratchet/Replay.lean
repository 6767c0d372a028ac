/-
# Tacenta.Ratchet.Replay -- no second answer on the current chain

While every ratchet key entered is one the run had not met, the numbers stored
under the current receiving key stay behind the chain's counter, and so does
every number answered under it, which is no longer stored (`Tracked`).  Each move
keeps this (`Move.tracked`), so a header answered once and presented again while
its key is the current one meets neither the store nor the chain.

A key the run had met would break it: a Diffie-Hellman step back onto it starts
its numbers over.
-/
import Tacenta.Ratchet.Moves
import Tacenta.Sample

set_option autoImplicit false

namespace Tacenta.Ratchet.State

variable {K : Type} {kdf : Kdf K} {s s' : State K} {past now : List (Event K)}

/-- What a state knows of the peer's keys and the numbers under them. -/
structure Tracked (past : List (Event K)) (s : State K) : Prop where
  distinct : s.skipped.Pairwise fun a b => ¬ (a.dh = b.dh ∧ a.n = b.n)
  current : s.ckr.isSome = true → ∀ dh, s.dhrPub = some dh → dh ∈ peerKeys past
  filed : ∀ k ∈ s.skipped, k.dh ∈ peerKeys past
  behind : ∀ k ∈ s.skipped, s.dhrPub = some k.dh → k.n.toNat < s.nr.toNat
  met : ∀ dh n, (dh, n) ∈ past.filterMap Event.answered → dh ∈ peerKeys past
  spent : ∀ dh n, (dh, n) ∈ past.filterMap Event.answered → s.dhrPub = some dh →
    n.toNat < s.nr.toNat ∧ ∀ k ∈ s.skipped, ¬ (k.dh = dh ∧ k.n = n)

theorem Started.tracked {first : State K} (started : Started kdf first) : Tracked [] first := by
  obtain ⟨empty, -, unopened⟩ := started.empty
  exact ⟨by simp [empty], by simp [unopened], by simp [empty], by simp [empty], by simp, by simp⟩

/-- Dropping stored keys keeps the record. -/
theorem Tracked.of_sublist (tracked : Tracked past s) {left : List (SkippedKey K)}
    (sub : left.Sublist s.skipped) : Tracked past { s with skipped := left } where
  distinct := tracked.distinct.sublist sub
  current := tracked.current
  filed k member := tracked.filed k (sub.subset member)
  behind k member := tracked.behind k (sub.subset member)
  met := tracked.met
  spent dh n answered peer := by
    obtain ⟨below, absent⟩ := tracked.spent dh n answered peer
    exact ⟨below, fun k member => absent k (sub.subset member)⟩

/-- Events that enter no key and answer no message leave the record as it is. -/
theorem Tracked.quiet (tracked : Tracked past s)
    (keys : peerKeys now = []) (answers : now.filterMap Event.answered = []) :
    Tracked (past ++ now) s := by
  have same : peerKeys (past ++ now) = peerKeys past := by
    rw [peerKeys_append, keys, List.append_nil]
  have same' : (past ++ now).filterMap Event.answered = past.filterMap Event.answered := by
    rw [List.filterMap_append, answers, List.append_nil]
  obtain ⟨distinct, current, filed, behind, met, spent⟩ := tracked
  rw [← same] at current filed
  refine ⟨distinct, current, filed, behind, ?_, ?_⟩
  · rw [same, same']
    exact met
  · rw [same']
    exact spent

/-- A message answered under a key the record knows joins it. -/
theorem Tracked.answer (tracked : Tracked past s) {e : Event K} {dh : Arr 32} {n : UInt32}
    (here : e.answered = some (dh, n)) (silent : e.peerKey = none)
    (known : dh ∈ peerKeys past)
    (gone : s.dhrPub = some dh → n.toNat < s.nr.toNat ∧ ∀ k ∈ s.skipped, ¬ (k.dh = dh ∧ k.n = n)) :
    Tracked (past ++ [e]) s := by
  have same : peerKeys (past ++ [e]) = peerKeys past := by
    simp [peerKeys, silent]
  have grown : (past ++ [e]).filterMap Event.answered =
      past.filterMap Event.answered ++ [(dh, n)] := by
    simp [here]
  refine ⟨tracked.distinct, ?_, ?_, tracked.behind, ?_, ?_⟩
  · rw [same]
    exact tracked.current
  · rw [same]
    exact tracked.filed
  · intro dh' n' answered
    rw [grown, List.mem_append, List.mem_singleton] at answered
    rw [same]
    rcases answered with before | now_
    · exact tracked.met dh' n' before
    · rw [(Prod.mk.inj now_).1]
      exact known
  · intro dh' n' answered peer
    rw [grown, List.mem_append, List.mem_singleton] at answered
    rcases answered with before | now_
    · exact tracked.spent dh' n' before peer
    · obtain ⟨rfl, rfl⟩ := Prod.mk.inj now_
      exact gone peer

theorem skipLog_quiet (s : State K) (ck : K) (dhr : Arr 32) (upto : UInt32) :
    peerKeys (skipLog kdf s ck dhr upto) = [] ∧
      (skipLog kdf s ck dhr upto).filterMap Event.answered = [] := by
  constructor
  · simp [skipLog, peerKeys, List.filterMap_eq_nil_iff, Event.peerKey]
  · simp [skipLog, List.filterMap_eq_nil_iff, Event.answered]

/-- A skip stores numbers the counter has not reached, and moves it past them. -/
theorem Tracked.skip (tracked : Tracked past s) {ck : K} {dhr : Arr 32} {upto : UInt32}
    (chain : s.ckr = some ck) (peer : s.dhrPub = some dhr) (ahead : s.nr < upto) :
    Tracked past (skippedTo kdf s ck dhr upto) := by
  have climbs := UInt32.lt_iff_toNat_lt.1 ahead
  have stored : ∀ k ∈ (skippedTo kdf s ck dhr upto).skipped, k ∈ s.skipped ∨
      (k.dh = dhr ∧ s.nr.toNat ≤ k.n.toNat ∧ k.n.toNat < upto.toNat) := by
    intro k member
    rcases List.mem_append.1 member with old | new
    · exact .inl (List.mem_filter.1 old).1
    · obtain ⟨pair, numbered, rfl⟩ := List.mem_map.1 new
      have inside := numberedKeys_inside numbered
      exact .inr ⟨rfl, UInt32.le_iff_toNat_le.1 inside.1, UInt32.lt_iff_toNat_lt.1 inside.2⟩
  have met : dhr ∈ peerKeys past := tracked.current (by rw [chain]; rfl) dhr peer
  refine ⟨skippedTo_distinct tracked.distinct ahead, ?_, ?_, ?_, tracked.met, ?_⟩
  · intro _ dh peer'
    rw [← Option.some.inj (peer.symm.trans peer')]
    exact met
  · intro k member
    rcases stored k member with old | ⟨here, -⟩
    · exact tracked.filed k old
    · rw [here]
      exact met
  · intro k member peer'
    rcases stored k member with old | ⟨-, -, below⟩
    · exact (tracked.behind k old peer').trans climbs
    · exact below
  · intro dh n answered peer'
    obtain ⟨below, absent⟩ := tracked.spent dh n answered peer'
    refine ⟨below.trans climbs, ?_⟩
    intro k member named
    rcases stored k member with old | ⟨-, above, -⟩
    · exact absent k old named
    · rw [named.2] at above
      omega

/-- A step onto a key the run had not met starts its numbers afresh. -/
theorem Tracked.ratchet (tracked : Tracked past s) {header : Header}
    (fresh : header.dh ∉ peerKeys past) (dhOutRecv dhOutSend : K) (newDhsPub : Arr 32) :
    Tracked (past ++ [.entered header.dh])
      (dhRatchet kdf s header dhOutRecv dhOutSend newDhsPub) := by
  have grown : peerKeys (past ++ [.entered header.dh]) =
      peerKeys past ++ [header.dh] := peerKeys_append past _
  have same : (past ++ [Event.entered header.dh]).filterMap Event.answered =
      past.filterMap Event.answered := by
    simp [Event.answered]
  refine ⟨tracked.distinct, ?_, ?_, ?_, ?_, ?_⟩
  · intro _ dh peer
    rw [grown, ← Option.some.inj peer]
    exact List.mem_append_right _ List.mem_cons_self
  · intro k member
    rw [grown]
    exact List.mem_append_left _ (tracked.filed k member)
  · intro k member peer
    refine absurd (tracked.filed k member) ?_
    rw [← Option.some.inj peer]
    exact fresh
  · intro dh n answered
    rw [same] at answered
    rw [grown]
    exact List.mem_append_left _ (tracked.met dh n answered)
  · intro dh n answered peer
    rw [same] at answered
    refine absurd (tracked.met dh n answered) ?_
    rw [← Option.some.inj peer]
    exact fresh

/-- Drawing a number moves the counter past it. -/
theorem Tracked.draw (tracked : Tracked past s) {ck next' : K} {dh : Arr 32} {next : UInt32}
    (chain : s.ckr = some ck) (peer : s.dhrPub = some dh) (climbs : s.nr.checkedAdd 1 = some next) :
    Tracked (past ++ [.drawn dh s.nr]) { s with ckr := some next', nr := next } := by
  rw [UInt32.checkedAdd_eq_some, UInt32.toNat_one] at climbs
  have opened : s.ckr.isSome = true := by
    rw [chain]
    rfl
  have moved : Tracked past { s with ckr := some next', nr := next } := by
    refine ⟨tracked.distinct, fun _ => tracked.current opened, tracked.filed, ?_, tracked.met, ?_⟩
    · intro k member peer'
      have := tracked.behind k member peer'
      show k.n.toNat < next.toNat
      omega
    · intro dh' n answered peer'
      obtain ⟨below, absent⟩ := tracked.spent dh' n answered peer'
      refine ⟨?_, absent⟩
      show n.toNat < next.toNat
      omega
  apply moved.answer rfl rfl (tracked.current opened dh peer)
  intro _
  constructor
  · show s.nr.toNat < next.toNat
    omega
  · rintro k member ⟨rfl, same⟩
    have := tracked.behind k member peer
    rw [same] at this
    omega

/-- **Every move keeps the record**, while the keys entered are fresh. -/
theorem Move.tracked (move : Move kdf s now s') (fresh : (peerKeys (past ++ now)).Nodup)
    (tracked : Tracked past s) : Tracked (past ++ now) s' := by
  cases move with
  | send =>
      rw [List.append_nil]
      exact ⟨tracked.distinct, tracked.current, tracked.filed, tracked.behind, tracked.met,
        tracked.spent⟩
  | thin sub only logged =>
      apply (tracked.of_sublist sub).quiet
      · rw [peerKeys, List.filterMap_eq_nil_iff]
        intro e member
        obtain ⟨k, rfl⟩ := only e member
        rfl
      · rw [List.filterMap_eq_nil_iff]
        intro e member
        obtain ⟨k, rfl⟩ := only e member
        rfl
  | @use dh n k left taken =>
      have member := (takeFirst_mem taken).1
      obtain ⟨before, after, split_, rest, -, -⟩ := takeFirst_eq_some taken
      refine (tracked.of_sublist (takeFirst_sublist taken)).answer rfl rfl
        (tracked.filed k member) fun peer => ⟨tracked.behind k member peer, ?_⟩
      intro k' still named
      have apart := tracked.distinct
      rw [split_, List.pairwise_append, List.pairwise_cons] at apart
      simp only [rest, List.mem_append] at still
      rcases still with early | late
      · exact apart.2.2 k' early k List.mem_cons_self named
      · exact apart.2.1.1 k' late ⟨named.1.symm, named.2.symm⟩
  | @skip ck dhr upto chain peer ahead room =>
      obtain ⟨keys, answers⟩ := skipLog_quiet s ck dhr upto
      exact (tracked.skip chain peer ahead).quiet keys answers
  | @ratchet header other dhOutRecv dhOutSend newDhsPub =>
      refine tracked.ratchet ?_ dhOutRecv dhOutSend newDhsPub
      rw [peerKeys_append] at fresh
      intro met
      exact List.disjoint_of_nodup_append fresh met (by simp [peerKeys, Event.peerKey])
  | draw chain peer climbs => exact tracked.draw chain peer climbs
  | age =>
      rw [List.append_nil]
      have thinned : Tracked past { s with skipped := (ageStore s).skipped } :=
        tracked.of_sublist List.filter_sublist
      exact ⟨thinned.distinct, thinned.current, thinned.filed, thinned.behind, thinned.met,
        thinned.spent⟩

/-- **The record holds along a run** whose keys are pairwise distinct. -/
theorem run_tracked [DecidableEq K] {first : State K} (started : Started kdf first) (calls : List (Call K))
    (fresh : (peerKeys ((call kdf).run first calls).2).Nodup) :
    Tracked ((call kdf).run first calls).2 ((call kdf).run first calls).1 := by
  have each : ∀ past s now s', Move kdf s now s' →
      ((peerKeys past).Nodup → Tracked past s) →
        (peerKeys (past ++ now)).Nodup → Tracked (past ++ now) s' := by
    intro past s now s' move tracked distinct
    apply move.tracked distinct
    apply tracked
    rw [peerKeys_append] at distinct
    exact distinct.sublist (List.sublist_append_left _ _)
  have kept := Machine.run_keeps (call_moves kdf) each (fun _ => started.tracked) calls
  rw [List.nil_append] at kept
  exact kept fresh

/-! ## The second presentation -/

/-- An answered receive logs the message it answered. -/
theorem receive_answered {header : Header} {dhOutRecv dhOutSend : K} {newDhsPub : Arr 32} {mk : K}
    (accepted : (receive kdf s header dhOutRecv dhOutSend newDhsPub).2 = .ok mk) :
    (header.dh, header.n) ∈
      (receiveEvents kdf s header dhOutRecv dhOutSend newDhsPub).filterMap Event.answered := by
  have received : receive kdf s header dhOutRecv dhOutSend newDhsPub =
      ((receive kdf s header dhOutRecv dhOutSend newDhsPub).1, .ok mk) := by
    rw [← accepted]
  rw [receiveEvents]
  obtain ⟨left, stored, -⟩ | ⟨absent, mid, entered, advanced⟩ := receive_ok received
  · obtain ⟨found, taken, -⟩ := Option.map_eq_some_iff.1 stored
    have named := (takeFirst_mem taken).2
    rw [SkippedKey.named, decide_eq_true_eq] at named
    simp [taken, Event.answered, named]
  · rw [trySkipped, Option.map_eq_none_iff] at absent
    simp [absent, entered, advanceEvents, advanced, Event.answered]

/-- A number behind the counter of the current chain, and not in the store, is
refused, and nothing moves. -/
theorem receive_spent {header : Header} (peer : s.dhrPub = some header.dh)
    (behind : header.n.toNat < s.nr.toNat)
    (absent : ∀ k ∈ s.skipped, ¬ (k.dh = header.dh ∧ k.n = header.n)) (dhOutRecv dhOutSend : K)
    (newDhsPub : Arr 32) :
    receive kdf s header dhOutRecv dhOutSend newDhsPub = (s, .error .outOfOrder) := by
  have missing : trySkipped s.skipped header = none := by
    rw [trySkipped, Option.map_eq_none_iff, takeFirst_eq_none]
    intro k member
    exact decide_eq_false (absent k member)
  unfold receive
  rw [missing, enterChain_same peer]
  show advanceChain kdf s header = _
  rw [advanceChain, skipMessageKeys_behind (by omega)]
  show (if header.n < s.nr then _ else _) = _
  rw [if_pos (UInt32.lt_iff_toNat_lt.2 behind)]

/-- **A header answered once is refused while its key is current**, as out of
order and with the state unchanged, whatever a run does in between. -/
theorem replay_refused_on_chain [DecidableEq K] {first s s' : State K}
    (started : Started kdf first) {before after : List (Call K)} {header : Header}
    {dhOutRecv dhOutSend : K} {newDhsPub : Arr 32} {mk : K} {past events : List (Event K)}
    (reached : (call kdf).run first before = (s, past))
    (accepted : (receive kdf s header dhOutRecv dhOutSend newDhsPub).2 = .ok mk)
    (run_ : (call kdf).run first
      (before ++ .receive header dhOutRecv dhOutSend newDhsPub true :: after) = (s', events))
    (fresh : (peerKeys events).Nodup) (current : s'.dhrPub = some header.dh)
    (dhOutRecv' dhOutSend' : K) (newDhsPub' : Arr 32) :
    receive kdf s' header dhOutRecv' dhOutSend' newDhsPub' = (s', .error .outOfOrder) := by
  have tracked : Tracked events s' := by
    have along := @run_tracked K kdf _ first started
      (before ++ .receive header dhOutRecv dhOutSend newDhsPub true :: after)
    rw [run_] at along
    exact along fresh
  have answered : (header.dh, header.n) ∈ events.filterMap Event.answered := by
    have log : ((call kdf).run first
        (before ++ .receive header dhOutRecv dhOutSend newDhsPub true :: after)).2 = events := by
      rw [run_]
    rw [Machine.run_append_snd, reached, Machine.run_cons] at log
    rw [← log, List.filterMap_append, List.filterMap_append]
    apply List.mem_append_right
    apply List.mem_append_left
    exact receive_answered accepted
  obtain ⟨behind, absent⟩ := tracked.spent _ _ answered current
  exact receive_spent current behind absent dhOutRecv' dhOutSend' newDhsPub'

namespace Late

/-- The second message of a chain arrives, and then the first. -/
def second : Call Bytes := .receive ⟨Vector.replicate 32 1, 0, 1⟩ [1] [2] (Vector.replicate 32 3) true

def header : Header := ⟨Vector.replicate 32 1, 0, 0⟩

def start : State Bytes := initReceiver [7] (Vector.replicate 32 2) .tacenta

/-- The first message is taken from the store, and something is sent. -/
def run : State Bytes × List (Event Bytes) :=
  (call Sample.idealKdf).run start
    ([second] ++ .receive header [1] [2] (Vector.replicate 32 3) true :: [.send])

end Late

/-- The late message is refused when it comes once more. -/
theorem replay_refused_on_chain_late :
    receive Sample.idealKdf Late.run.1 Late.header [1] [2] (Vector.replicate 32 3) =
      (Late.run.1, .error .outOfOrder) := by
  have accepted : (receive Sample.idealKdf ((call Sample.idealKdf).run Late.start [Late.second]).1
      Late.header [1] [2] (Vector.replicate 32 3)).2.toBool = true := by decide +kernel
  obtain ⟨mk, answered⟩ : ∃ mk, (receive Sample.idealKdf
      ((call Sample.idealKdf).run Late.start [Late.second]).1 Late.header [1] [2]
      (Vector.replicate 32 3)).2 = .ok mk := by
    cases here : (receive Sample.idealKdf ((call Sample.idealKdf).run Late.start [Late.second]).1
      Late.header [1] [2] (Vector.replicate 32 3)).2 with
    | error e => simp [here, Except.toBool] at accepted
    | ok mk => exact ⟨mk, rfl⟩
  have fresh : (peerKeys Late.run.2).Nodup := by decide +kernel
  have current : Late.run.1.dhrPub = some Late.header.dh := by decide +kernel
  exact replay_refused_on_chain (.receiver [7] (Vector.replicate 32 2) .tacenta)
    Prod.mk.eta.symm answered Prod.mk.eta.symm fresh current [1] [2] (Vector.replicate 32 3)

end Tacenta.Ratchet.State
