/-
# Tacenta.Triple.Runs -- what holds of both halves along a run

A run of the composition is a run of each half, on one state.  A send that
refuses and a receive whose caller drops it leave both where they were.  What the
moves of the halves keep therefore holds of both at once (`Reached`): the numbers
stored under the current ratchet key are behind its counter, while every key
entered is one the run had not met; the sparse store is behind its counters; and
neither store is over its bound.
-/
import Tacenta.Ratchet.Replay
import Tacenta.Spqr.Runs
import Tacenta.Triple.Sends

set_option autoImplicit false

namespace Tacenta

variable {K : Type} {kdf : Kdf K}

/-- No move takes the classical store over its bound. -/
theorem Ratchet.State.Move.bounded {s s' : Ratchet.State K} {now : List (Ratchet.State.Event K)}
    (move : Ratchet.State.Move kdf s now s') (bounded : s.skipped.length ≤ Ratchet.maxSkippedStore) :
    s'.skipped.length ≤ Ratchet.maxSkippedStore := by
  cases move with
  | send | ratchet | draw => exact bounded
  | thin sub => exact sub.length_le.trans bounded
  | use taken => exact (takeFirst_sublist taken).length_le.trans bounded
  | skip chain peer ahead room =>
      simpa [Ratchet.skippedTo, Ratchet.numberedKeys] using room
  | age => exact List.filter_sublist.length_le.trans bounded

namespace Triple

/-- The sparse half makes its own moves. -/
theorem call_sparse (kdf : Kdf K) (s : State K) (c : Call K) :
    ∃ now,
      Spqr.State.Moves kdf (fun _ => True) s.postQuantum now (s.call kdf c).1.postQuantum := by
  have moves : ∀ c, Spqr.State.Moves kdf (fun _ => True) s.postQuantum _ _ :=
    fun c => Spqr.State.call_moves kdf s.postQuantum c fun _ _ => trivial
  cases c with
  | send epoch output =>
      rw [State.call]
      cases ran : s.send kdf epoch output with
      | mk left result =>
          cases result with
          | error e =>
              rw [State.send_error ran]
              exact ⟨[], .refl s.postQuantum⟩
          | ok sent =>
              obtain ⟨dr, mkEc, pqN, mkPq, -, sparse, -⟩ := State.send_ok ran
              have sends := moves (.send epoch output)
              rw [Spqr.State.call_send, sparse] at sends
              exact ⟨_, sends⟩
  | receive header dhOutRecv dhOutSend newDhsPub output adopts =>
      rw [State.call]
      cases ran : s.receive kdf header dhOutRecv dhOutSend newDhsPub output with
      | error e => exact ⟨[], .refl s.postQuantum⟩
      | ok value =>
          obtain ⟨next, key⟩ := value
          obtain ⟨mkEc, mkPq, -, sparse, -⟩ := State.receive_ok ran
          have receives := moves (.receive header.epoch output header.pqN)
          rw [Spqr.State.call_receive, sparse] at receives
          cases adopts with
          | false => exact ⟨[], .refl s.postQuantum⟩
          | true => exact ⟨_, receives⟩
  | evictClassical count => exact ⟨[], .refl s.postQuantum⟩
  | evictPostQuantum count => exact ⟨_, moves (.evictOldest count)⟩

section Machine

variable [DecidableEq K]

/-- What a call did to the classical half. -/
def State.classicalEvents (kdf : Kdf K) (s : State K) : Call K → List (Ratchet.State.Event K)
  | .receive header dhOutRecv dhOutSend newDhsPub output adopts =>
      match s.receive kdf header dhOutRecv dhOutSend newDhsPub output with
      | .ok _ =>
          if adopts then
            Ratchet.State.receiveEvents kdf s.classical header.dr dhOutRecv dhOutSend newDhsPub
          else []
      | .error _ => []
  | .evictClassical count =>
      Ratchet.State.evictEvents s.classical (s.classical.evictOldest count).1
  | _ => []

/-- A state's calls, with what they did to the classical half. -/
def State.classicalCall (kdf : Kdf K) : Machine (State K) (Call K) (Ratchet.State.Event K) :=
  fun s c => ((s.call kdf c).1, s.classicalEvents kdf c)

theorem State.classicalCall_fst (kdf : Kdf K) (s : State K) (calls : List (Call K)) :
    ((State.classicalCall kdf).run s calls).1 = ((State.call kdf).run s calls).1 := by
  induction calls generalizing s with
  | nil => rfl
  | cons c rest ih => exact ih (s.call kdf c).1

/-- The classical half makes its own moves. -/
theorem call_classical (kdf : Kdf K) (s : State K) (c : Call K) :
    Ratchet.State.Moves kdf s.classical (s.classicalEvents kdf c) (s.call kdf c).1.classical := by
  cases c with
  | send epoch output =>
      rw [State.call]
      cases ran : s.send kdf epoch output with
      | mk left result =>
          cases result with
          | error e =>
              rw [State.send_error ran]
              exact .refl s.classical
          | ok sent =>
              obtain ⟨dr, mkEc, pqN, mkPq, classical, -⟩ := State.send_ok ran
              have moves := Ratchet.State.call_moves kdf s.classical .send
              rw [Ratchet.State.call, classical] at moves
              exact moves
  | receive header dhOutRecv dhOutSend newDhsPub output adopts =>
      rw [State.call, State.classicalEvents]
      cases ran : s.receive kdf header dhOutRecv dhOutSend newDhsPub output with
      | error e => exact .refl s.classical
      | ok value =>
          obtain ⟨next, key⟩ := value
          obtain ⟨mkEc, mkPq, classical, -⟩ := State.receive_ok ran
          have moves := Ratchet.State.receive_moves kdf s.classical header.dr dhOutRecv dhOutSend
            newDhsPub
          rw [classical] at moves
          cases adopts with
          | false => exact .refl s.classical
          | true => exact moves
  | evictClassical count => exact Ratchet.State.call_moves kdf s.classical (.evict count)
  | evictPostQuantum count => exact .refl s.classical

end Machine

theorem Started.classical {s : State K} (started : Started kdf s) :
    Ratchet.State.Started kdf s.classical := by
  cases started with
  | sender sk ourPub peerPub dhOut labels => exact .sender _ ourPub peerPub dhOut labels
  | receiver sk ourPub labels => exact .receiver _ ourPub labels

theorem Started.sparse {s : State K} (started : Started kdf s) : Spqr.State.Sound s.postQuantum := by
  cases started with
  | sender => exact Spqr.State.init_sound kdf _ _
  | receiver => exact Spqr.State.init_sound kdf _ _

/-- What a run keeps of both halves: the record of the classical one while no
ratchet key was entered twice. -/
structure Reached (past : List (Ratchet.State.Event K)) (s : State K) : Prop where
  tracked : (Ratchet.State.peerKeys past).Nodup → Ratchet.State.Tracked past s.classical
  bounded : s.classical.skipped.length ≤ Ratchet.maxSkippedStore
  sound : Spqr.State.Sound s.postQuantum

theorem Started.reached {first : State K} (started : Started kdf first) : Reached [] first := by
  refine ⟨fun _ => started.classical.tracked, ?_, started.sparse⟩
  rw [started.classical.empty.1]
  exact Nat.zero_le _

/-- Every call keeps both halves' records. -/
theorem Reached.call [DecidableEq K] {past : List (Ratchet.State.Event K)} {s : State K}
    (reached : Reached past s) (kdf : Kdf K) (c : Call K) :
    Reached (past ++ (State.classicalCall kdf s c).2) (State.classicalCall kdf s c).1 := by
  have tracks : ∀ past s now s', Ratchet.State.Move kdf s now s' →
      ((Ratchet.State.peerKeys past).Nodup → Ratchet.State.Tracked past s) →
        (Ratchet.State.peerKeys (past ++ now)).Nodup → Ratchet.State.Tracked (past ++ now) s' := by
    intro past s now s' move tracked distinct
    apply move.tracked distinct
    apply tracked
    rw [Ratchet.State.peerKeys_append] at distinct
    exact distinct.sublist (List.sublist_append_left _ _)
  have bounds : ∀ (_past : List (Ratchet.State.Event K)) s now s', Ratchet.State.Move kdf s now s' →
      s.skipped.length ≤ Ratchet.maxSkippedStore → s'.skipped.length ≤ Ratchet.maxSkippedStore :=
    fun _ _ _ _ move bounded => move.bounded bounded
  have sounds : ∀ (_past : List (Spqr.Event K)) s now s',
      Spqr.State.Move kdf (fun _ => True) s now s' → Spqr.State.Sound s → Spqr.State.Sound s' :=
    fun _ _ _ _ move sound => move.sound sound
  have classical := call_classical kdf s c
  obtain ⟨now, sparse⟩ := call_sparse kdf s c
  exact ⟨classical.keeps tracks reached.tracked,
    @Machine.Steps.keeps _ _ _ _ _ _ _ classical bounds [] reached.bounded,
    @Spqr.State.Moves.keeps _ _ _ _ _ _ _ sparse sounds [] reached.sound⟩

/-- **Both halves along a run**. -/
theorem run_reached [DecidableEq K] {first : State K} (started : Started kdf first)
    (calls : List (Call K)) :
    Reached ((State.classicalCall kdf).run first calls).2
      ((State.call kdf).run first calls).1 := by
  have keeps : (State.classicalCall kdf).Keeps (fun _ => True) Reached :=
    fun past s c _ reached => reached.call kdf c
  have kept := keeps.run started.reached (fun (c : Call K) (_ : c ∈ calls) => trivial)
  rwa [List.nil_append, State.classicalCall_fst] at kept

end Triple

end Tacenta
