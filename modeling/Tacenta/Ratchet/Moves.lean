/-
# Tacenta.Ratchet.Moves -- one party's runs, in indivisible moves

A run of the classical ratchet is a run of calls on one state: sends, receives
whose caller keeps what they left or drops it, and evictions.  Each call is a
few moves (`call_moves`), and the events name what each move did to the store:
the keys it stored, purged, used or evicted, the number it drew from the chain,
the ratchet key it entered.

A receive that refuses may have moved the state; a run keeps that too, when its
caller does.
-/
import Tacenta.Ratchet.Skips
import Tacenta.Runs

set_option autoImplicit false

namespace Tacenta.Ratchet.State

variable {K : Type} {kdf : Kdf K}

/-- What a call did. -/
inductive Event (K : Type) where
  /-- A Diffie-Hellman step onto the peer's key. -/
  | entered (dh : Arr 32)
  | stored (k : SkippedKey K)
  | purged (k : SkippedKey K)
  /-- A message was answered from the store. -/
  | used (k : SkippedKey K)
  /-- A message was answered from the chain. -/
  | drawn (dh : Arr 32) (n : UInt32)
  | evicted (k : SkippedKey K)
  deriving DecidableEq

/-- A call on a state.  A receive's caller keeps what the call left, or drops it. -/
inductive Call (K : Type) where
  | send
  | receive (header : Header) (dhOutRecv dhOutSend : K) (newDhsPub : Arr 32) (keeps : Bool)
  | evict (count : Nat)

/-- The ratchet key an event entered. -/
def Event.peerKey : Event K → Option (Arr 32)
  | .entered dh => some dh
  | _ => none

/-- The message an event answered. -/
def Event.answered : Event K → Option (Arr 32 × UInt32)
  | .used k => some (k.dh, k.n)
  | .drawn dh n => some (dh, n)
  | _ => none

/-- The event took `k` out of the store. -/
def Event.Drops (k : SkippedKey K) (e : Event K) : Prop :=
  e = .purged k ∨ e = .used k ∨ e = .evicted k

/-! ## What each part of a call did -/

/-- The keys a skip drops and stores. -/
def skipLog (kdf : Kdf K) (s : State K) (ck : K) (dhr : Arr 32) (upto : UInt32) :
    List (Event K) :=
  (s.skipped.filter (SkippedKey.passed dhr s.nr upto)).map .purged ++
    (numberedKeys kdf ck s.nr.toNat (upto.toNat - s.nr.toNat)).map fun k =>
      .stored { dh := dhr, n := k.1, storedAt := s.events, key := k.2 }

def skipEvents (kdf : Kdf K) (s : State K) (upto : UInt32) : List (Event K) :=
  match (skipMessageKeys kdf s upto).2, s.ckr, s.dhrPub with
  | .ok (), some ck, some dhr => skipLog kdf s ck dhr upto
  | _, _, _ => []

def enterEvents (kdf : Kdf K) (s : State K) (header : Header) : List (Event K) :=
  if s.dhrPub = some header.dh then []
  else
    match (skipMessageKeys kdf s header.pn).2 with
    | .error _ => []
    | .ok () => skipEvents kdf s header.pn ++ [.entered header.dh]

def advanceEvents (kdf : Kdf K) (s : State K) (header : Header) : List (Event K) :=
  skipEvents kdf s header.n ++
    match (advanceChain kdf s header).2 with
    | .error _ => []
    | .ok _ => [.drawn header.dh header.n]

def receiveEvents (kdf : Kdf K) (s : State K) (header : Header) (dhOutRecv dhOutSend : K)
    (newDhsPub : Arr 32) : List (Event K) :=
  match takeFirst (SkippedKey.named header.dh header.n) s.skipped with
  | some (k, _) => [.used k]
  | none =>
      enterEvents kdf s header ++
        match enterChain kdf s header dhOutRecv dhOutSend newDhsPub with
        | (_, .error _) => []
        | (s, .ok ()) => advanceEvents kdf s header

section Machine

variable [DecidableEq K]

def evictEvents (before after : State K) : List (Event K) :=
  (before.skipped.filter fun k => !after.skipped.contains k).map .evicted

/-- What a call leaves, and what it did. -/
def call (kdf : Kdf K) : Machine (State K) (Call K) (Event K)
  | s, .send => ((send kdf s).1, [])
  | s, .receive header dhOutRecv dhOutSend newDhsPub keeps =>
      if keeps then
        ((receive kdf s header dhOutRecv dhOutSend newDhsPub).1,
          receiveEvents kdf s header dhOutRecv dhOutSend newDhsPub)
      else (s, [])
  | s, .evict count => ((s.evictOldest count).1, evictEvents s (s.evictOldest count).1)

end Machine

/-! ## Moves -/

/-- One indivisible change of a state. -/
inductive Move (kdf : Kdf K) (s : State K) : List (Event K) → State K → Prop where
  | send {ck : K} {ns : UInt32} : Move kdf s [] { s with cks := some ck, ns := ns }
  | thin {left : List (SkippedKey K)} {now : List (Event K)} (sub : left.Sublist s.skipped)
      (only : ∀ e ∈ now, ∃ k, e = .evicted k)
      (logged : ∀ k ∈ s.skipped, k ∉ left → .evicted k ∈ now) :
      Move kdf s now { s with skipped := left }
  | use {dh : Arr 32} {n : UInt32} {k : SkippedKey K} {left : List (SkippedKey K)}
      (taken : takeFirst (SkippedKey.named dh n) s.skipped = some (k, left)) :
      Move kdf s [.used k] { s with skipped := left }
  | skip {ck : K} {dhr : Arr 32} {upto : UInt32} (chain : s.ckr = some ck)
      (peer : s.dhrPub = some dhr) (ahead : s.nr < upto)
      (room : (purgeChainRange s.skipped dhr s.nr upto).length + (upto.toNat - s.nr.toNat) ≤
        maxSkippedStore) :
      Move kdf s (skipLog kdf s ck dhr upto) (skippedTo kdf s ck dhr upto)
  | ratchet {header : Header} (other : s.dhrPub ≠ some header.dh) (dhOutRecv dhOutSend : K)
      (newDhsPub : Arr 32) :
      Move kdf s [.entered header.dh] (dhRatchet kdf s header dhOutRecv dhOutSend newDhsPub)
  | draw {ck : K} {dh : Arr 32} {next : UInt32} (chain : s.ckr = some ck)
      (peer : s.dhrPub = some dh) (climbs : s.nr.checkedAdd 1 = some next) :
      Move kdf s [.drawn dh s.nr] { s with ckr := some (kdfCk kdf ck).1, nr := next }
  | age : Move kdf s [] (ageStore s)

abbrev Moves (kdf : Kdf K) := Machine.Steps (Move kdf)

/-- A skip that stays where it is logs nothing. -/
theorem skipLog_behind {s : State K} {ck : K} {dhr : Arr 32} {upto : UInt32} (behind : upto ≤ s.nr) :
    skipLog kdf s ck dhr upto = [] := by
  rw [UInt32.le_iff_toNat_le] at behind
  have none_ : s.skipped.filter (SkippedKey.passed dhr s.nr upto) = [] := by
    rw [List.filter_eq_nil_iff]
    intro k _ inside
    rw [SkippedKey.passed, decide_eq_true_eq] at inside
    omega
  rw [skipLog, none_, Nat.sub_eq_zero_of_le behind]
  rfl

theorem skipMessageKeys_moves (kdf : Kdf K) (s : State K) (upto : UInt32) :
    Moves kdf s (skipEvents kdf s upto) (skipMessageKeys kdf s upto).1 := by
  cases ran : skipMessageKeys kdf s upto with
  | mk left result =>
      cases result with
      | error e =>
          rw [skipMessageKeys_error ran, skipEvents, ran]
          exact .refl s
      | ok =>
          obtain ⟨rfl, still⟩ | ⟨ck, dhr, chain, peer, ahead, -, room, rfl⟩ := skipMessageKeys_ok ran
          · have silent : skipEvents kdf left upto = [] := by
              rw [skipEvents, ran]
              cases chain : left.ckr with
              | none => rfl
              | some ck =>
                  cases peer : left.dhrPub with
                  | none => rfl
                  | some dhr =>
                      refine skipLog_behind ?_
                      simpa [chain, peer] using still
            rw [silent]
            exact .refl left
          · rw [skipEvents, ran, chain, peer]
            exact .one (.skip chain peer ahead room)

theorem enterChain_moves (kdf : Kdf K) (s : State K) (header : Header) (dhOutRecv dhOutSend : K)
    (newDhsPub : Arr 32) :
    Moves kdf s (enterEvents kdf s header)
      (enterChain kdf s header dhOutRecv dhOutSend newDhsPub).1 := by
  by_cases same : s.dhrPub = some header.dh
  · rw [enterChain_same same, enterEvents, if_pos same]
    exact .refl s
  · have skips := skipMessageKeys_moves kdf s header.pn
    rw [enterChain_other same, enterEvents, if_neg same]
    cases ran : skipMessageKeys kdf s header.pn with
    | mk mid result =>
        rw [ran] at skips
        cases result with
        | error e =>
            rw [skipMessageKeys_error ran]
            exact .refl s
        | ok =>
            have other : mid.dhrPub ≠ some header.dh := by
              rw [(skipMessageKeys_frame ran).2.1]
              exact same
            exact skips.trans (.one (.ratchet other dhOutRecv dhOutSend newDhsPub))

/-- Every refusal past the skip leaves what the skip left. -/
theorem advanceChain_error {s left : State K} {header : Header} {e : RatchetError}
    (refused : advanceChain kdf s header = (left, .error e)) :
    left = (skipMessageKeys kdf s header.n).1 := by
  unfold advanceChain at refused
  generalize skipMessageKeys kdf s header.n = skipped at refused
  obtain ⟨mid, e' | done⟩ := skipped
  · exact (Prod.mk.inj refused).1.symm
  · simp only at refused
    split at refused
    · exact (Prod.mk.inj refused).1.symm
    · split at refused
      · exact (Prod.mk.inj refused).1.symm
      · split at refused
        · exact (Prod.mk.inj refused).1.symm
        · simp at refused

theorem advanceChain_moves (kdf : Kdf K) (s : State K) (header : Header)
    (peer : s.dhrPub = some header.dh) :
    Moves kdf s (advanceEvents kdf s header) (advanceChain kdf s header).1 := by
  have skips := skipMessageKeys_moves kdf s header.n
  rw [advanceEvents]
  cases ran : advanceChain kdf s header with
  | mk left result =>
      cases result with
      | error e =>
          rw [advanceChain_error ran]
          simpa using skips
      | ok mk =>
          obtain ⟨mid, ck, next, skipped, reached, chain, climbs, -, rfl⟩ := advanceChain_ok ran
          rw [skipped] at skips
          have frame := skipMessageKeys_frame skipped
          have peer' : mid.dhrPub = some header.dh := frame.2.1.trans peer
          have exact_ : mid.nr = header.n := by
            apply UInt32.le_antisymm reached
            obtain ⟨rfl, still⟩ | ⟨_, _, -, -, -, -, -, rfl⟩ := skipMessageKeys_ok skipped
            · simpa [chain, peer] using still
            · exact UInt32.le_refl _
          have drawn : Move kdf mid [.drawn header.dh mid.nr]
              { mid with ckr := some (kdfCk kdf ck).1, nr := next } := .draw chain peer' climbs
          rw [exact_] at drawn
          exact skips.trans (.head drawn (.one .age))

theorem receive_moves (kdf : Kdf K) (s : State K) (header : Header) (dhOutRecv dhOutSend : K)
    (newDhsPub : Arr 32) :
    Moves kdf s (receiveEvents kdf s header dhOutRecv dhOutSend newDhsPub)
      (receive kdf s header dhOutRecv dhOutSend newDhsPub).1 := by
  rw [receiveEvents, receive, trySkipped]
  cases taken : takeFirst (SkippedKey.named header.dh header.n) s.skipped with
  | some found =>
      have used : Move kdf s [.used found.1] { s with skipped := found.2 } := .use taken
      exact .head used (.one .age)
  | none =>
      have enters := enterChain_moves kdf s header dhOutRecv dhOutSend newDhsPub
      simp only [Option.map_none]
      cases ran : enterChain kdf s header dhOutRecv dhOutSend newDhsPub with
      | mk mid result =>
          rw [ran] at enters
          cases result with
          | error e => simpa using enters
          | ok =>
              have peer : mid.dhrPub = some header.dh := by
                obtain ⟨same, rfl⟩ | ⟨-, rest, -, rfl⟩ := enterChain_ok ran
                · exact same
                · rfl
              exact enters.trans (advanceChain_moves kdf mid header peer)

theorem send_error {s s' : State K} {e : RatchetError}
    (refused : send kdf s = (s', .error e)) : s' = s := by
  unfold send at refused
  split at refused
  · exact (Prod.mk.inj refused).1.symm
  · split at refused
    · exact (Prod.mk.inj refused).1.symm
    · simp at refused

/-- **Every call is a few moves**, also when it is refused. -/
theorem call_moves [DecidableEq K] (kdf : Kdf K) (s : State K) (c : Call K) :
    Moves kdf s (call kdf s c).2 (call kdf s c).1 := by
  cases c with
  | send =>
      rw [call]
      cases ran : send kdf s with
      | mk left result =>
          cases result with
          | error e =>
              rw [send_error ran]
              exact .refl s
          | ok answer =>
              obtain ⟨header, mk⟩ := answer
              obtain ⟨ck, next, -, -, -, -, rfl⟩ := send_ok ran
              exact .one .send
  | receive header dhOutRecv dhOutSend newDhsPub keeps =>
      cases keeps with
      | false => exact .refl s
      | true => exact receive_moves kdf s header dhOutRecv dhOutSend newDhsPub
  | evict count =>
      refine .one (.thin (eraseIdx_evictOldest_sublist count s.skipped) ?_ ?_)
      · intro e logged
        obtain ⟨k, -, rfl⟩ := List.mem_map.1 logged
        exact ⟨k, rfl⟩
      · intro k member gone
        have absent : k ∉ (s.evictOldest count).1.skipped := gone
        exact List.mem_map_of_mem (List.mem_filter.2 ⟨member, by simpa using absent⟩)

/-! ## Runs -/

/-- A state as a constructor leaves it. -/
inductive Started (kdf : Kdf K) : State K → Prop where
  | sender (sk : K) (ourPub peerPub : Arr 32) (dhOut : K) (labels : LabelSet) :
      Started kdf (initSender kdf sk ourPub peerPub dhOut labels)
  | receiver (sk : K) (ourPub : Arr 32) (labels : LabelSet) :
      Started kdf (initReceiver sk ourPub labels)

theorem Started.empty {s : State K} (started : Started kdf s) :
    s.skipped = [] ∧ s.events = 0 ∧ s.ckr = none := by
  cases started with
  | sender => exact ⟨rfl, rfl, rfl⟩
  | receiver => exact ⟨rfl, rfl, rfl⟩

/-- The peer's keys entered along a run, one for each Diffie-Hellman step. -/
def peerKeys (past : List (Event K)) : List (Arr 32) := past.filterMap Event.peerKey

theorem peerKeys_append (past now : List (Event K)) :
    peerKeys (past ++ now) = peerKeys past ++ peerKeys now := List.filterMap_append ..

end Tacenta.Ratchet.State
