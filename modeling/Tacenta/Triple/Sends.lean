/-
# Tacenta.Triple.Sends -- what a Triple Ratchet has sent

Whatever is done with one state is `Move`s: a send, an adopted receive, a
thinning of the stored keys.  `Sends` is kept by each of them
(`Move.sends`): the sparse halves of all headers sent are distinct, and so are
the classical halves while every ratchet key adopted is fresh; over an ideal
derivation no message key, and no cipher key, was used twice (`Sends.sentOnce`).

It speaks of the sends and the ratchet keys so far, so it also holds of an
export as long as nothing is sent after it; `Kept` runs follow from
`Machine.withStorage_run`.
-/
import Tacenta.Spqr.Lineage
import Tacenta.Triple.Inductive

set_option autoImplicit false

namespace Tacenta

variable {K : Type} {kdf : Kdf K}

/-- A receive takes no step, or one under the key offered. -/
theorem Ratchet.receive_turns {s s' : Ratchet.State K} {header : Ratchet.Header}
    {dhOutRecv dhOutSend : K} {newDhsPub : Arr 32} {mk : K}
    (received : Ratchet.receive kdf s header dhOutRecv dhOutSend newDhsPub = (s', .ok mk)) :
    (s'.dhrPub = s.dhrPub ∧ s'.dhsPub = s.dhsPub ∧ s'.ns = s.ns) ∨
      (s'.dhrPub ≠ s.dhrPub ∧ s'.dhsPub = newDhsPub) := by
  have skips : ∀ {s mid : Ratchet.State K} {upto : UInt32},
      Ratchet.skipMessageKeys kdf s upto = (mid, .ok ()) →
        mid.dhrPub = s.dhrPub ∧ mid.dhsPub = s.dhsPub ∧ mid.ns = s.ns := by
    intro s mid upto skipped
    obtain ⟨rfl, -⟩ | ⟨_, _, -, -, -, -, -, rfl⟩ := Ratchet.skipMessageKeys_ok skipped
    · exact ⟨rfl, rfl, rfl⟩
    · exact ⟨rfl, rfl, rfl⟩
  obtain ⟨left, -, rfl⟩ | ⟨-, mid, entered, advanced⟩ := Ratchet.receive_ok received
  · exact .inl ⟨rfl, rfl, rfl⟩
  · obtain ⟨ahead, ck, next, skipped, -, -, -, -, rfl⟩ := Ratchet.advanceChain_ok advanced
    obtain ⟨peer, own, count⟩ := skips skipped
    obtain ⟨-, rfl⟩ | ⟨other, rest, -, rfl⟩ := Ratchet.enterChain_ok entered
    · exact .inl ⟨peer, own, count⟩
    · refine .inr ⟨?_, own⟩
      show ahead.dhrPub ≠ s.dhrPub
      rw [peer]
      exact fun same => other same.symm

namespace Triple

/-! ## Events -/

/-- What a state sent, with the key of each half, and the ratchet keys it adopted. -/
inductive Event (K : Type) where
  | sent (header : Header) (mkClassical mkPq : K)
  | ratcheted (dh : Arr 32)

def Event.isSent : Event K → Bool
  | .sent .. => true
  | .ratcheted _ => false

/-- The sparse half of a header sent: `(pq_epoch, pq_n)`. -/
def Event.pqPair : Event K → Option (UInt64 × UInt64)
  | .sent header _ _ => some (header.epoch, header.pqN)
  | .ratcheted _ => none

/-- The classical half of a header sent: `(dh, n)`. -/
def Event.classicalPair : Event K → Option (Arr 32 × UInt32)
  | .sent header _ _ => some (header.dr.dh, header.dr.n)
  | .ratcheted _ => none

/-- The message key of a send. -/
def Event.messageKey (kdf : Kdf K) : Event K → Option K
  | .sent _ mkClassical mkPq => some (combine kdf mkClassical mkPq)
  | .ratcheted _ => none

/-- The encryption key and the IV a message is enciphered under. -/
def Event.cipherKeys (kdf : Kdf K) : Event K → Option (K × Bytes)
  | .sent _ mkClassical mkPq =>
      let (enc, _, iv) := Ratchet.messageKeys kdf (combine kdf mkClassical mkPq) .tacenta
      some (enc, iv)
  | .ratcheted _ => none

def Event.ratchetKey : Event K → Option (Arr 32)
  | .sent .. => none
  | .ratcheted dh => some dh

/-- A send as the sparse half saw it. -/
def Event.sparse : Event K → Option (Spqr.Event K)
  | .sent header _ mkPq => some (.sent header.epoch header.pqN mkPq)
  | .ratcheted _ => none

/-- What a send with these arguments draws, if both halves can. -/
def State.drawn (kdf : Kdf K) (s : State K) (sendingEpoch : UInt64)
    (output : Option (Spqr.Output K)) : List (Event K) :=
  match Ratchet.send kdf s.classical, s.postQuantum.send kdf sendingEpoch output with
  | (_, .ok (dr, mkEc)), (_, .ok (pqN, mkPq)) =>
      [.sent { dr := dr, epoch := sendingEpoch, pqN := pqN } mkEc mkPq]
  | _, _ => []

/-- The ratchet key an adopted receive brought. -/
def ratchetEvents (before after : State K) : List (Event K) :=
  if after.classical.dhrPub ≠ before.classical.dhrPub then [.ratcheted after.sendingPublic] else []

/-- One change of a state. -/
inductive Move (kdf : Kdf K) (s : State K) : List (Event K) → State K → Prop where
  | send {epoch : UInt64} {output : Option (Spqr.Output K)} {s' : State K} {dr : Ratchet.Header}
      {mkEc : K} {pqN : UInt64} {mkPq : K}
      (classical : Ratchet.send kdf s.classical = (s'.classical, .ok (dr, mkEc)))
      (sparse : s.postQuantum.send kdf epoch output = (s'.postQuantum, .ok (pqN, mkPq))) :
      Move kdf s [.sent { dr := dr, epoch := epoch, pqN := pqN } mkEc mkPq] s'
  | thin {w : State K} (thinned : Thinned s w) : Move kdf s [] w
  | receive {header : Header} {dhOutRecv dhOutSend : K} {newDhsPub : Arr 32}
      {output : Option (Spqr.Output K)} {s' : State K} {key : K}
      (received : s.receive kdf header dhOutRecv dhOutSend newDhsPub output = .ok (s', key)) :
      Move kdf s (ratchetEvents s s') s'

variable {s s' : State K} {past now : List (Event K)}

/-- A send that succeeds is a move, and draws one event. -/
theorem State.send_move {epoch : UInt64} {output : Option (Spqr.Output K)} {header : Header}
    {key : K} (sent : s.send kdf epoch output = (s', .ok (header, key))) :
    Move kdf s (s.drawn kdf epoch output) s' ∧ ∃ mkEc mkPq,
      s.drawn kdf epoch output = [.sent header mkEc mkPq] ∧ key = combine kdf mkEc mkPq := by
  obtain ⟨dr, mkEc, pqN, mkPq, classical, sparse, rfl, rfl⟩ := State.send_ok sent
  have drawn : s.drawn kdf epoch output =
      [.sent { dr := dr, epoch := epoch, pqN := pqN } mkEc mkPq] := by
    simp only [State.drawn, classical, sparse]
  rw [drawn]
  exact ⟨.send classical sparse, mkEc, mkPq, rfl, rfl⟩

/-! ## The classical half -/

/-- The classical numbers sent so far, while every ratchet key is fresh: each of
a key adopted, and those of the current key behind its counter. -/
structure Counted (first : Arr 32) (past : List (Event K)) (s : Ratchet.State K) : Prop where
  known : s.dhsPub ∈ first :: past.filterMap Event.ratchetKey
  keyed : ∀ dh n, (dh, n) ∈ past.filterMap Event.classicalPair →
    dh ∈ first :: past.filterMap Event.ratchetKey
  behind : ∀ n, (s.dhsPub, n) ∈ past.filterMap Event.classicalPair → n.toNat < s.ns.toNat
  once : (past.filterMap Event.classicalPair).Nodup

/-- A move that sends nothing and keeps key and counter. -/
theorem Counted.same {first : Arr 32} {c c' : Ratchet.State K} (counted : Counted first past c)
    (key : c'.dhsPub = c.dhsPub) (count : c'.ns = c.ns) : Counted first past c' := by
  refine ⟨?_, counted.keyed, ?_, counted.once⟩
  · rw [key]
    exact counted.known
  · rw [key, count]
    exact counted.behind

/-- **A send takes the next number of its key.** -/
theorem Counted.send {first : Arr 32} {c c' : Ratchet.State K} {header : Header} {dr : Ratchet.Header}
    {mk mkEc mkPq : K} (counted : Counted first past c)
    (sent : Ratchet.send kdf c = (c', .ok (dr, mk))) (same : header.dr = dr) :
    Counted first (past ++ [.sent header mkEc mkPq]) c' := by
  obtain ⟨ck, next, -, climbs, rfl, -, rfl⟩ := Ratchet.send_ok sent
  rw [UInt32.checkedAdd_eq_some, UInt32.toNat_one] at climbs
  have keys : (past ++ [Event.sent header mkEc mkPq]).filterMap Event.ratchetKey =
      past.filterMap Event.ratchetKey := by
    rw [List.filterMap_append]
    exact List.append_nil _
  have pairs : (past ++ [Event.sent header mkEc mkPq]).filterMap Event.classicalPair =
      past.filterMap Event.classicalPair ++ [(c.dhsPub, c.ns)] := by
    rw [List.filterMap_append]
    simp [Event.classicalPair, same]
  refine ⟨?_, ?_, ?_, ?_⟩
  · rw [keys]
    exact counted.known
  · rw [keys, pairs]
    intro dh n member
    rcases List.mem_append.1 member with old | new
    · exact counted.keyed dh n old
    · rw [List.mem_singleton, Prod.mk.injEq] at new
      rw [new.1]
      exact counted.known
  · rw [pairs]
    intro n member
    rcases List.mem_append.1 member with old | new
    · have := counted.behind n old
      exact show n.toNat < next.toNat by omega
    · rw [List.mem_singleton, Prod.mk.injEq] at new
      rw [new.2]
      exact show c.ns.toNat < next.toNat by omega
  · rw [pairs, List.nodup_append]
    refine ⟨counted.once, List.nodup_singleton _, ?_⟩
    rintro pair old _ new rfl
    rw [List.mem_singleton] at new
    rw [new] at old
    exact absurd (counted.behind _ old) (lt_irrefl _)

/-- **A fresh ratchet key** has sent nothing yet. -/
theorem Counted.ratchet {first : Arr 32} {c c' : Ratchet.State K} (counted : Counted first past c)
    (fresh : (first :: (past ++ [Event.ratcheted c'.dhsPub]).filterMap Event.ratchetKey).Nodup) :
    Counted first (past ++ [.ratcheted c'.dhsPub]) c' := by
  have keys : (past ++ [Event.ratcheted c'.dhsPub]).filterMap Event.ratchetKey =
      past.filterMap Event.ratchetKey ++ [c'.dhsPub] := by
    rw [List.filterMap_append]
    rfl
  have pairs : (past ++ [Event.ratcheted c'.dhsPub]).filterMap Event.classicalPair =
      past.filterMap Event.classicalPair := by
    rw [List.filterMap_append]
    exact List.append_nil _
  rw [keys, ← List.cons_append, List.nodup_append] at fresh
  refine ⟨?_, ?_, ?_, ?_⟩
  · rw [keys, ← List.cons_append]
    exact List.mem_append_right _ (List.mem_singleton.2 rfl)
  · rw [keys, pairs, ← List.cons_append]
    intro dh n member
    exact List.mem_append_left _ (counted.keyed dh n member)
  · rw [pairs]
    intro n member
    exact absurd rfl (fresh.2.2 _ (counted.keyed _ n member) _ (List.mem_singleton.2 rfl))
  · rw [pairs]
    exact counted.once

/-! ## Both halves -/

/-- The sends of a state so far, `first` being the ratchet key it began with. -/
structure Sends (kdf : Kdf K) (first : Arr 32) (past : List (Event K)) (s : State K) : Prop where
  sparse : Spqr.State.Draws kdf (past.filterMap Event.sparse) s.postQuantum
  classical : (first :: past.filterMap Event.ratchetKey).Nodup → Counted first past s.classical

/-- Freshness so far is part of freshness later. -/
theorem nodup_before {first : Arr 32}
    (fresh : (first :: (past ++ now).filterMap Event.ratchetKey).Nodup) :
    (first :: past.filterMap Event.ratchetKey).Nodup := by
  rw [List.filterMap_append] at fresh
  exact fresh.sublist (List.Sublist.cons_cons _ (List.sublist_append_left _ _))

/-- A sparse send, fold included, draws the next number of a chain. -/
theorem draws_send {q q' : Spqr.State K} {sends : List (Spqr.Event K)} {epoch pqN : UInt64}
    {output : Option (Spqr.Output K)} {mkPq : K} (draws : Spqr.State.Draws kdf sends q)
    (sent : q.send kdf epoch output = (q', .ok (pqN, mkPq))) :
    Spqr.State.Draws kdf (sends ++ [.sent epoch pqN mkPq]) q' := by
  have moves : Spqr.State.Moves kdf (fun _ => True) q _ _ :=
    Spqr.State.call_moves kdf q (.send epoch output) fun _ _ => trivial
  have after := moves.keeps (fun _ _ _ _ move here => move.draws here) draws
  simp only [Spqr.State.call, sent] at after
  exact after

/-- A sparse receive draws nothing. -/
theorem draws_receive {q q' : Spqr.State K} {sends : List (Spqr.Event K)} {epoch pqN : UInt64}
    {output : Option (Spqr.Output K)} {mkPq : K} (draws : Spqr.State.Draws kdf sends q)
    (received : q.receive kdf epoch output pqN = (q', .ok mkPq)) :
    Spqr.State.Draws kdf sends q' := by
  have moves : Spqr.State.Moves kdf (fun _ => True) q _ _ :=
    Spqr.State.call_moves kdf q (.receive epoch output pqN) fun _ _ => trivial
  have after := moves.keeps (fun _ _ _ _ move here => move.draws here) draws
  simp only [Spqr.State.call, received] at after
  exact after.forget fun e n key member => by simp at member

/-- **Every move keeps the record of sends.** -/
theorem Move.sends {first : Arr 32} (move : Move kdf s now s') (sends : Sends kdf first past s) :
    Sends kdf first (past ++ now) s' := by
  cases move with
  | @send epoch output _ dr mkEc pqN mkPq classical sparse =>
      refine ⟨?_, fun fresh => (sends.classical (nodup_before fresh)).send classical rfl⟩
      rw [List.filterMap_append]
      exact draws_send sends.sparse sparse
  | thin thinned =>
      obtain ⟨⟨left, _, same⟩, ⟨left', sub, same'⟩⟩ := thinned
      rw [List.append_nil]
      refine ⟨?_, fun fresh => (sends.classical fresh).same (by rw [same]) (by rw [same])⟩
      rw [same']
      exact sends.sparse.of_sublist sub
  | receive received =>
      obtain ⟨mkEc, mkPq, classical, sparse, -⟩ := State.receive_ok received
      have quiet : (ratchetEvents s s').filterMap Event.sparse = [] := by
        unfold ratchetEvents
        split <;> rfl
      refine ⟨?_, ?_⟩
      · rw [List.filterMap_append, quiet, List.append_nil]
        exact draws_receive sends.sparse sparse
      · intro fresh
        have counted := sends.classical (nodup_before fresh)
        obtain ⟨peer, key, count⟩ | ⟨stepped, -⟩ := Ratchet.receive_turns classical
        · rw [ratchetEvents, if_neg (by simpa using peer), List.append_nil]
          exact counted.same key count
        · rw [ratchetEvents, if_pos stepped] at fresh ⊢
          exact counted.ratchet fresh

/-- Ratchet keys adopted elsewhere leave the record of sends. -/
theorem Sends.idle {first : Arr 32} (sends : Sends kdf first past s)
    (silent : ∀ e ∈ now, Event.isSent e = false) : Sends kdf first (past ++ now) s := by
  have none_ : ∀ {α : Type} (f : Event K → Option α), (∀ dh, f (.ratcheted dh) = none) →
      now.filterMap f = [] := by
    intro α f outside
    rw [List.filterMap_eq_nil_iff]
    intro event member
    cases event with
    | sent => simpa [Event.isSent] using silent _ member
    | ratcheted dh => exact outside dh
  have sparse : (past ++ now).filterMap Event.sparse = past.filterMap Event.sparse := by
    rw [List.filterMap_append, none_ _ fun _ => rfl, List.append_nil]
  have pairs : (past ++ now).filterMap Event.classicalPair = past.filterMap Event.classicalPair := by
    rw [List.filterMap_append, none_ _ fun _ => rfl, List.append_nil]
  have more : ∀ dh, dh ∈ first :: past.filterMap Event.ratchetKey →
      dh ∈ first :: (past ++ now).filterMap Event.ratchetKey := by
    intro dh member
    rw [List.filterMap_append, ← List.cons_append]
    exact List.mem_append_left _ member
  refine ⟨by rw [sparse]; exact sends.sparse, fun fresh => ?_⟩
  obtain ⟨known, keyed, behind, once⟩ := sends.classical (nodup_before fresh)
  rw [← pairs] at keyed behind once
  exact ⟨more _ known, fun dh n member => more dh (keyed dh n member), behind, once⟩

/-- Two keys under which a message was enciphered come of one message key. -/
theorem cipherKeys_inj (ideal : kdf.Ideal) {a b : Event K} {x : K × Bytes}
    (ha : a.cipherKeys kdf = some x) (hb : b.cipherKeys kdf = some x) :
    ∃ key, a.messageKey kdf = some key ∧ b.messageKey kdf = some key := by
  cases a with
  | ratcheted => simp [Event.cipherKeys] at ha
  | sent header mkEc mkPq =>
      cases b with
      | ratcheted => simp [Event.cipherKeys] at hb
      | sent header' mkEc' mkPq' =>
          simp only [Event.cipherKeys, Option.some.injEq] at ha hb
          have same := congrArg Prod.fst (ha.trans hb.symm)
          obtain ⟨-, keys, -⟩ := ideal.hkdf_inj (by omega) (by omega) same
          exact ⟨_, rfl, congrArg some (ideal.bytes_inj keys.symm)⟩

/-- No two sends share a number; nor, with outputs of the derivation distinct, a
message key, or a cipher key and IV. -/
structure SentOnce (kdf : Kdf K) (first : Arr 32) (past : List (Event K)) : Prop where
  sparse : (past.filterMap Event.pqPair).Nodup
  classical : (first :: past.filterMap Event.ratchetKey).Nodup →
    (past.filterMap Event.classicalPair).Nodup
  keys : kdf.Ideal → (past.filterMap (Event.messageKey kdf)).Nodup ∧
    (past.filterMap (Event.cipherKeys kdf)).Nodup

/-- **No two sends share a number or a key.** -/
theorem Sends.sentOnce {first : Arr 32} (sends : Sends kdf first past s) :
    SentOnce kdf first past := by
  have pairs : (past.filterMap Event.sparse).filterMap Spqr.Event.sentPair =
      past.filterMap Event.pqPair := by
    rw [List.filterMap_filterMap]
    congr 1
    funext event
    cases event <;> rfl
  have once := sends.sparse.drawn.once
  rw [pairs] at once
  refine ⟨once, fun fresh => (sends.classical fresh).once, fun ideal => ?_⟩
  obtain ⟨sk, secret, -, scheduled⟩ := sends.sparse.lineage
  -- A message key gives away its sparse half, and that its place on the schedule.
  have named : ∀ a ∈ past, ∀ b ∈ past, ∀ x, a.messageKey kdf = some x → b.messageKey kdf = some x →
      ∃ y, a.pqPair = some y ∧ b.pqPair = some y := by
    intro a left b right x ha hb
    cases a with
    | ratcheted => simp [Event.messageKey] at ha
    | sent header mkEc mkPq =>
        cases b with
        | ratcheted => simp [Event.messageKey] at hb
        | sent header' mkEc' mkPq' =>
            simp only [Event.messageKey, Option.some.injEq] at ha hb
            obtain ⟨salts, -, -⟩ := ideal.hkdf_inj (by omega) (by omega) (ha.trans hb.symm)
            obtain ⟨positive, key⟩ :=
              scheduled _ _ _ (List.mem_filterMap.2 ⟨_, left, rfl⟩)
            obtain ⟨positive', key'⟩ :=
              scheduled _ _ _ (List.mem_filterMap.2 ⟨_, right, rfl⟩)
            have same := ideal.bytes_inj salts
            rw [key, key'] at same
            obtain ⟨epochs, numbers⟩ := Spqr.messageKeyOf_inj ideal positive positive' same
            exact ⟨_, rfl, by rw [Event.pqPair, epochs, numbers]⟩
  have keys := nodup_filterMap_of once named
  exact ⟨keys, nodup_filterMap_of keys fun a _ b _ x => cipherKeys_inj ideal⟩

/-- A state that starts has sent nothing. -/
theorem Sends.start (draws : Spqr.State.Draws kdf [] s.postQuantum) :
    Sends kdf s.sendingPublic [] s :=
  ⟨draws, fun _ => ⟨List.mem_cons_self, by simp, by simp, List.nodup_nil⟩⟩

/-! ## One state's machine -/

/-- One call on a state.  A receive hands a candidate back, which its caller
adopts or drops. -/
inductive Call (K : Type) where
  | send (sendingEpoch : UInt64) (output : Option (Spqr.Output K))
  | receive (header : Header) (dhOutRecv dhOutSend : K) (newDhsPub : Arr 32)
      (output : Option (Spqr.Output K)) (adopts : Bool)
  | evictClassical (count : Nat)
  | evictPostQuantum (count : Nat)

/-- The state a call leaves, and what it sent or adopted. -/
def State.call (kdf : Kdf K) : Machine (State K) (Call K) (Event K)
  | s, .send epoch output =>
      match s.send kdf epoch output with
      | (s', .ok _) => (s', s.drawn kdf epoch output)
      | (s', .error _) => (s', [])
  | s, .receive header dhOutRecv dhOutSend newDhsPub output adopts =>
      match s.receive kdf header dhOutRecv dhOutSend newDhsPub output with
      | .ok (s', _) => if adopts then (s', ratchetEvents s s') else (s, [])
      | .error _ => (s, [])
  | s, .evictClassical count => ((s.evictOldestClassical count).1, [])
  | s, .evictPostQuantum count => ((s.evictOldestPostQuantum count).1, [])

/-- **Every call keeps the record of sends.** -/
theorem Sends.call {first : Arr 32} (sends : Sends kdf first past s) (c : Call K) :
    Sends kdf first (past ++ (s.call kdf c).2) (s.call kdf c).1 := by
  have still : Sends kdf first (past ++ []) s := by
    rw [List.append_nil]
    exact sends
  cases c with
  | send epoch output =>
      cases ran : s.send kdf epoch output with
      | mk s' result =>
          simp only [State.call, ran]
          cases result with
          | error e =>
              rw [State.send_error ran]
              exact still
          | ok sent => exact (State.send_move ran).1.sends sends
  | receive header dhOutRecv dhOutSend newDhsPub output adopts =>
      cases ran : s.receive kdf header dhOutRecv dhOutSend newDhsPub output with
      | error e =>
          simp only [State.call, ran]
          exact still
      | ok answer =>
          simp only [State.call, ran]
          cases adopts with
          | false => exact still
          | true => exact (Move.receive ran).sends sends
  | evictClassical count => exact (Move.thin (evictOldestClassical_thinned s count)).sends sends
  | evictPostQuantum count => exact (Move.thin (evictOldestPostQuantum_thinned s count)).sends sends

/-- A state as a constructor leaves it. -/
inductive Started (kdf : Kdf K) : State K → Prop where
  | sender (sk : Bytes) (ourPub peerPub : Arr 32) (dhOut : K) (labels : Ratchet.LabelSet) :
      Started kdf (State.initSender kdf sk ourPub peerPub dhOut labels)
  | receiver (sk : Bytes) (ourPub : Arr 32) (labels : Ratchet.LabelSet) :
      Started kdf (State.initReceiver kdf sk ourPub labels)

theorem Started.sends (started : Started kdf s) : Sends kdf s.sendingPublic [] s := by
  cases started with
  | sender => exact .start (Spqr.State.init_draws _ _ _)
  | receiver => exact .start (Spqr.State.init_draws _ _ _)

/-- What happened along a run of a state with a storage. -/
def eventsAlong {β : Type} (kdf : Kdf K) (save : State K → β) (load : β → Option (State K))
    (s : State K) (calls : List (Machine.StorageCall (Call K))) :
    List (Machine.StorageEvent (Event K)) :=
  (((State.call kdf).withStorage Event.isSent save load).run ⟨s, none, false⟩ calls).2

/-- **A state keeps the record of its sends** through exports and imports. -/
theorem run_sends {β : Type} {save : State K → β} {load : β → Option (State K)}
    (started : Started kdf s)
    (restores : ∀ calls s', load (save ((State.call kdf).run s calls).1) = some s' →
      s' = ((State.call kdf).run s calls).1) (calls : List (Machine.StorageCall (Call K)))
    (held : Machine.StorageEvent.rolledBack ∉ eventsAlong kdf save load s calls) :
    ∃ live, Sends kdf s.sendingPublic
      ((eventsAlong kdf save load s calls).filterMap Machine.StorageEvent.inner) live := by
  have kept := @Machine.withStorage_run _ _ _ _ (State.call kdf) Event.isSent save load
    (fun past live => Sends kdf s.sendingPublic past live ∧
      ∃ calls, live = ((State.call kdf).run s calls).1) ?_ ?_ ?_ s
    ⟨started.sends, [], rfl⟩ calls held
  · exact ⟨_, kept.1⟩
  · rintro past live c ⟨sends, calls, rfl⟩
    refine ⟨sends.call c, calls ++ [c], ?_⟩
    rw [Machine.run_append_fst]
    rfl
  · rintro past now live silent ⟨sends, reached⟩
    exact ⟨sends.idle silent, reached⟩
  · rintro past live live' ⟨-, calls, rfl⟩ loaded
    exact restores calls live' loaded

end Triple

end Tacenta
