/-
# Tacenta.Braid.Agreement -- the two ends of a Braid agree

An initiator and a responder built on one secret send as often as they like, and
the network hands over what it likes of it, in any order, as often as it likes.
With a KEM that works, neither end fails, a key both emit for an epoch is one
key, and what a call reports both ends have emitted before (`braid_agreement`).
-/
import Tacenta.Braid.Ends

set_option autoImplicit false
set_option linter.dupNamespace false

namespace Tacenta.Braid

open Tacenta.Erasure (Chunk)
open Tacenta.Kem
open Tacenta.Machine (ofParty)

variable {K : Type} {kdf : Kdf K} {ikem : IncKem K} {secret : Bytes} {st st' : State K}

/-! ## What is reported has been emitted -/

/-- **A state's peer has emitted the keys of the epochs before it.** -/
theorem emitted_of_needs {x : Bool} (role : st.isInitiator = some x)
    (peer : st'.isInitiator = some !x) (positive : 1 ≤ st.epoch.toNat)
    (needs : st.needs ≤ st'.stage) : st.epoch.toNat - 1 ≤ st'.emitted := by
  have alive : st ≠ .failed := by
    rintro rfl
    cases role
  have alive' : st' ≠ .failed := by
    rintro rfl
    cases peer
  have least := (State.emitted_bounds alive').1
  by_cases behind : st.epoch.toNat ≤ st'.epoch.toNat
  · omega
  -- The peer is an epoch behind: it has streamed `ct2`, and not the header.
  have far : 5 * st.epoch.toNat - 1 ≤ st.needs := by
    cases st <;> simp only [State.needs, State.epoch] <;> first | omega | exact absurd rfl alive
  have place : st'.place ≤ 4 := by cases st' <;> simp [State.place]
  simp only [State.stage] at needs
  have last : st'.epoch.toNat + 1 = st.epoch.toNat := by omega
  have waits : ∃ a dec, st = .noHeaderReceived st.epoch a dec := by
    cases st <;> simp only [State.needs, State.epoch] at needs last ⊢ <;>
      first | omega | exact absurd rfl alive | exact ⟨_, _, rfl⟩
  obtain ⟨a, dec, waiting⟩ := waits
  rw [waiting] at role
  have turned : head st.epoch = !head st'.epoch := odd_next last.symm
  cases st' with
  | ekSentCt1Received e =>
      have mine : (!head st.epoch) = x := Option.some.inj role
      have theirs : head e = !x := Option.some.inj peer
      have turned' : head st.epoch = !head e := turned
      rw [turned', theirs] at mine
      cases x <;> simp at mine
  | ct2Sampled e =>
      simp only [State.epoch, State.emitted] at last ⊢
      omega
  | failed => exact absurd rfl alive'
  | _ =>
      simp only [State.place, State.epoch] at needs far last
      omega

theorem receive_reported {b : Braid K} {msg : Msg}
    (alive : (stepReceive kdf ikem msg b.state).2 ≠ .failed) :
    (b.receive kdf ikem msg).1.toNat = (stepReceive kdf ikem msg b.state).2.epoch.toNat - 1 := by
  obtain ⟨st⟩ := b
  have takes := stepReceive_takes kdf ikem msg st
  unfold Braid.receive
  generalize stepReceive kdf ikem msg st = result at *
  obtain ⟨out, next⟩ := result
  cases out with
  | none => simp [Braid.reported]
  | some o =>
      simp only at takes alive ⊢
      generalize same : some o = out at takes
      cases takes with
      | ct2Complete =>
          obtain ⟨next, raw, climbs, -, -, completed⟩ := completeEpoch_alive alive
          rw [completed] at same ⊢
          obtain rfl := Option.some.inj same
          simp only [State.epoch, climbs, Nat.add_sub_cancel]
      | _ => cases same

/-! ## Both ends -/

/-- The two ends as their constructors build them, with nothing sent. -/
def startPair (kdf : Kdf K) (secret : Bytes) : Network.Pair (Braid K) Msg :=
  ⟨start kdf secret, fun _ => []⟩

/-- The pair after a run, and what its calls answered with. -/
def pairRun (kdf : Kdf K) (ikem : IncKem K) (secret : Bytes)
    (calls : List (Network.PairCall Rng)) : Network.Pair (Braid K) Msg × List (Bool × Event K) :=
  (Network.call (endOf kdf ikem)).run (startPair kdf secret) calls

/-- Both ends stay clear of the last epochs, which the counter keeps. -/
def BelowCeiling (kdf : Kdf K) (ikem : IncKem K) (secret : Bytes)
    (calls : List (Network.PairCall Rng)) : Prop :=
  ∀ before, before <+: calls → ∀ x,
    ((pairRun kdf ikem secret before).1.state x).epoch.toNat + 2 < 2 ^ 64

/-- Nothing drawn yet. -/
def blank (kdf : Kdf K) (ikem : IncKem K) (secret : Bytes) : Ledger ikem where
  keys _ := none
  secrets _ := none
  issued e v := (start kdf secret (v.sender e)).state.issued e v
  stage x := (start kdf secret x).state.stage
  generated found := by cases found
  encapsulated found := by cases found

theorem start_holds (x : Bool) :
    Holds kdf secret x (blank kdf ikem secret) [] (start kdf secret x) where
  along := start_along secret x
  agrees := by
    cases x with
    | true => rfl
    | false => exact ⟨rfl, Ledger.Gathers.new .header 1⟩
  stage := rfl
  needs := by
    cases x with
    | true => exact le_rfl
    | false => exact Nat.sub_le _ _
  issued e v own := by
    subst own
    rfl
  freshKeys _ _ _ := rfl
  freshSecrets _ _ _ := rfl
  outputs o emitted := by cases emitted

theorem start_under (honest : ikem.Honest) (sized : kdf.Sized) :
    (discipline kdf secret honest sized).Under (blank kdf ikem secret) [] (startPair kdf secret) :=
  ⟨fun x => start_holds x, fun _ _ sent => by cases sent⟩

/-- **What both ends know after a run.** -/
theorem run_under (honest : ikem.Honest) (sized : kdf.Sized) {calls : List (Network.PairCall Rng)}
    (below : BelowCeiling kdf ikem secret calls) :
    ∃ L, (discipline kdf secret honest sized).Under L (pairRun kdf ikem secret calls).2
      (pairRun kdf ikem secret calls).1 := by
  have run := (start_under honest sized).run calls below
  rwa [List.nil_append] at run

/-- After a call of `x`'s, what it reports is the epoch before its own. -/
theorem call_reported (s : Network.Pair (Braid K) Msg) (c : Network.PairCall Rng)
    (alive : ∀ x, ((Network.call (endOf kdf ikem) s c).1.state x).state ≠ .failed) :
    (Network.call (endOf kdf ikem) s c).2 = [] ∨ ∃ x out epoch,
      (Network.call (endOf kdf ikem) s c).2 = (answers out epoch).map (Prod.mk x) ∧
      epoch.toNat = ((Network.call (endOf kdf ikem) s c).1.state x).state.epoch.toNat - 1 := by
  cases c with
  | send x rng =>
      refine .inr ⟨x, _, _, rfl, ?_⟩
      simp only [Network.call, endOf, Function.update_self]
      simp [Braid.send, Braid.reported]
  | deliver x i =>
      cases found : (s.sent !x)[i]? with
      | none => exact .inl (by simp only [Network.call, found])
      | some m =>
          have after : (Network.call (endOf kdf ikem) s (.deliver x i)).1.state x =
              ⟨(stepReceive kdf ikem m (s.state x).state).2⟩ := by
            simp only [Network.call, found, Function.update_self]
            show (((s.state x).receive kdf ikem m).2).2 = _
            rw [receive_snd]
          refine .inr ⟨x, ((s.state x).receive kdf ikem m).2.1, ((s.state x).receive kdf ikem m).1,
            by simp only [Network.call, found]; rfl, ?_⟩
          have alive' := alive x
          rw [after] at alive' ⊢
          exact receive_reported alive'

/-- **An end's outputs are those of epochs `1, 2, 3, …` up to what it emitted.** -/
theorem Holds.emits {x : Bool} {L : Ledger ikem} {log : List (Bool × Event K)} {b : Braid K}
    (holds : Holds kdf secret x L (ofParty x log) b) {n : Nat} (positive : 1 ≤ n)
    (most : n ≤ b.state.emitted) : ∃ o, (x, .emitted o) ∈ log ∧ o.keyEpoch.toNat = n := by
  have listed := holds.along.outputs
  rw [← holds.along.emitted holds.agrees.alive] at listed
  have among : n ∈ ((ofParty x log).filterMap Event.output).map fun o => o.keyEpoch.toNat := by
    rw [listed, List.mem_range'_1]
    omega
  obtain ⟨o, emitted, number⟩ := List.mem_map.1 among
  obtain ⟨event, here, shown⟩ := List.mem_filterMap.1 emitted
  cases event with
  | reported => cases shown
  | emitted o' =>
      obtain rfl := Option.some.inj shown
      exact ⟨o', Machine.mem_ofParty.1 here, number⟩

/-- The report is the last of a call's answers. -/
theorem answers_report {out : Option (Output K)} {epoch r : UInt64} {x z : Bool} {k : Nat}
    (here : ((answers out epoch).map (Prod.mk x))[k]? = some (z, .reported r)) :
    k + 1 = (answers out epoch).length ∧ x = z ∧ epoch = r := by
  have inside : k < ((answers out epoch).map (Prod.mk x)).length :=
    (List.getElem?_eq_some_iff.1 here).1
  cases out with
  | none =>
      obtain rfl : k = 0 := by simpa [answers] using inside
      simpa [answers] using here
  | some o =>
      have two : k = 0 ∨ k = 1 := by
        simp only [answers, Option.toList_some, List.map_append, List.map_cons, List.map_nil,
          List.length_append, List.length_singleton] at inside
        omega
      rcases two with rfl | rfl
      · simp [answers] at here
      · simpa [answers] using here

/-- **What is reported both ends have emitted**, before the report. -/
theorem reported_emitted (honest : ikem.Honest) (sized : kdf.Sized)
    {calls : List (Network.PairCall Rng)} (below : BelowCeiling kdf ikem secret calls) {i : Nat}
    {x : Bool} {r : UInt64} (here : (pairRun kdf ikem secret calls).2[i]? = some (x, .reported r))
    (y : Bool) {n : Nat} (positive : 1 ≤ n) (most : n ≤ r.toNat) :
    ∃ j < i, ∃ o, (pairRun kdf ikem secret calls).2[j]? = some (y, .emitted o) ∧
      o.keyEpoch.toNat = n := by
  induction calls using List.reverseRecOn with
  | nil => cases here
  | append_singleton calls c ih =>
      have before : BelowCeiling kdf ikem secret calls := fun b inside =>
        below b (inside.trans (List.prefix_append _ _))
      have split : pairRun kdf ikem secret (calls ++ [c]) =
          ((Network.call (endOf kdf ikem) (pairRun kdf ikem secret calls).1 c).1,
            (pairRun kdf ikem secret calls).2 ++
              (Network.call (endOf kdf ikem) (pairRun kdf ikem secret calls).1 c).2) := by
        unfold pairRun
        refine Prod.ext ?_ ?_
        · rw [Machine.run_append_fst, Machine.run_cons, Machine.run_nil]
        · rw [Machine.run_append_snd, Machine.run_cons, Machine.run_nil, List.append_nil]
      by_cases early : i < (pairRun kdf ikem secret calls).2.length
      · rw [split, List.getElem?_append_left early] at here
        obtain ⟨j, first, o, emitted, number⟩ := ih before here
        refine ⟨j, first, o, ?_, number⟩
        rw [split, List.getElem?_append_left (first.trans early), emitted]
      obtain ⟨L, under⟩ := run_under honest sized below
      have state : ∀ z, (Network.call (endOf kdf ikem) (pairRun kdf ikem secret calls).1 c).1.state z =
          (pairRun kdf ikem secret (calls ++ [c])).1.state z := fun z => by rw [split]
      -- The report is the last event so far.
      obtain ⟨last, number⟩ : i + 1 = (pairRun kdf ikem secret (calls ++ [c])).2.length ∧
          r.toNat = ((pairRun kdf ikem secret (calls ++ [c])).1.state x).state.epoch.toNat - 1 := by
        rw [split, List.getElem?_append_right (Nat.not_lt.1 early)] at here
        rcases call_reported (pairRun kdf ikem secret calls).1 c
          fun z => by rw [state]; exact (under.knows z).agrees.alive with none_ | ⟨z, out, epoch, events, reported⟩
        · rw [none_] at here
          cases here
        · rw [events] at here
          obtain ⟨place, rfl, rfl⟩ := answers_report here
          rw [split, events, List.length_append, List.length_map]
          exact ⟨by omega, by rw [reported, state]⟩
      have most' : n ≤ ((pairRun kdf ikem secret (calls ++ [c])).1.state y).state.emitted := by
        have mine := under.knows x
        have theirs := under.knows y
        by_cases same : y = x
        · subst same
          exact (most.trans number.le).trans (State.emitted_bounds mine.agrees.alive).1
        · obtain rfl : y = !x := by cases x <;> cases y <;> simp_all
          have needs := mine.needs
          rw [theirs.stage] at needs
          exact (most.trans number.le).trans
            (emitted_of_needs mine.role theirs.role mine.positive needs)
      obtain ⟨o, emitted, found⟩ := (under.knows y).emits positive most'
      obtain ⟨j, inside, there⟩ := List.getElem_of_mem emitted
      have at_ : (pairRun kdf ikem secret (calls ++ [c])).2[j]? = some (y, .emitted o) := by
        rw [List.getElem?_eq_getElem inside, there]
      refine ⟨j, ?_, o, at_, found⟩
      rcases Nat.lt_or_ge j i with first | later
      · exact first
      · obtain rfl : j = i := by omega
        rw [at_] at here
        cases here

/-- **The two ends of a Braid agree.**  An initiator and a responder of one secret
send as often as they like, and are handed what the other sent in any order, any
number of times or never.  With a KEM that never fails on honest inputs and below
the last epochs: neither end has failed; the keys two outputs carry for one epoch
are one key; and whatever epoch a call reports, both ends have emitted the keys of
every epoch up to it before. -/
theorem braid_agreement (sized : kdf.Sized) (honest : ikem.Honest) (secret : Bytes)
    (calls : List (Network.PairCall Rng)) (below : BelowCeiling kdf ikem secret calls) :
    (∀ x, ((pairRun kdf ikem secret calls).1.state x).failed = false) ∧
    (∀ x y o o', (x, Event.emitted o) ∈ (pairRun kdf ikem secret calls).2 →
      (y, Event.emitted o') ∈ (pairRun kdf ikem secret calls).2 → o.keyEpoch = o'.keyEpoch →
        o.key = o'.key) ∧
    ∀ (i : Nat) x r, (pairRun kdf ikem secret calls).2[i]? = some (x, .reported r) →
      ∀ y (n : Nat), 1 ≤ n → n ≤ r.toNat →
        ∃ j < i, ∃ o, (pairRun kdf ikem secret calls).2[j]? = some (y, .emitted o) ∧
          o.keyEpoch.toNat = n := by
  obtain ⟨L, under⟩ := run_under honest sized below
  refine ⟨fun x => alive_iff.2 (under.knows x).agrees.alive, ?_, ?_⟩
  · have drawn : ∀ x o, (x, Event.emitted o) ∈ (pairRun kdf ikem secret calls).2 →
        ∃ s, L.secrets o.keyEpoch = some s ∧ o.key = kdfOk kdf s.2.2 o.keyEpoch := by
      intro x o emitted
      apply (under.knows x).outputs
      exact List.mem_filterMap.2 ⟨.emitted o, Machine.mem_ofParty.2 emitted, rfl⟩
    intro x y o o' mine theirs same
    obtain ⟨s, secrets, key⟩ := drawn x o mine
    obtain ⟨s', secrets', key'⟩ := drawn y o' theirs
    rw [← same, secrets, Option.some.injEq] at secrets'
    rw [key, key', same, secrets']
  · intro i x r here y n positive most
    exact reported_emitted honest sized below here y positive most

/-! ## Staying below the ceiling -/

theorem stepSend_epoch (rng : Rng) (st : State K) :
    (stepSend kdf ikem rng st).2.2.1.epoch.toNat ≤ st.epoch.toNat + 1 := by
  cases st with
  | keysUnsampled e a =>
      simp only [stepSend]
      cases generated : IncrementalKeyPair.generate ikem rng with
      | mk result rng' => cases result <;> simp [State.epoch]
  | headerReceived e a header dec =>
      simp only [stepSend]
      cases sampled : encapsulate1 ikem header rng with
      | mk result rng' => cases result <;> simp [State.epoch]
  | _ => exact Nat.le_succ _

theorem stepReceive_epoch (msg : Msg) (st : State K) :
    (stepReceive kdf ikem msg st).2.epoch.toNat ≤ st.epoch.toNat + 1 := by
  by_cases alive : (stepReceive kdf ikem msg st).2 = .failed
  · rw [alive]
    exact Nat.zero_le _
  · exact (stepReceive_takes kdf ikem msg st).epoch_le_succ alive

/-- A call takes neither end up more than one epoch. -/
theorem call_epoch (s : Network.Pair (Braid K) Msg) (c : Network.PairCall Rng) (x : Bool) :
    ((Network.call (endOf kdf ikem) s c).1.state x).epoch.toNat ≤ (s.state x).epoch.toNat + 1 := by
  cases c with
  | send y rng =>
      by_cases same : x = y
      · subst same
        simp only [Network.call, Function.update_self]
        exact stepSend_epoch rng (s.state x).state
      · simp only [Network.call, Function.update_of_ne same]
        exact Nat.le_succ _
  | deliver y i =>
      cases found : (s.sent !y)[i]? with
      | none =>
          simp only [Network.call, found]
          exact Nat.le_succ _
      | some m =>
          simp only [Network.call, found]
          by_cases same : x = y
          · subst same
            rw [Function.update_self]
            show ((s.state x).receive kdf ikem m).2.2.epoch.toNat ≤ _
            rw [receive_snd]
            exact stepReceive_epoch m (s.state x).state
          · rw [Function.update_of_ne same]
            exact Nat.le_succ _

/-- No run of fewer calls than there are epochs comes near the last. -/
theorem belowCeiling_of_length {calls : List (Network.PairCall Rng)}
    (few : calls.length + 3 < 2 ^ 64) : BelowCeiling kdf ikem secret calls := by
  have climbs : ∀ (before : List (Network.PairCall Rng)) (s : Network.Pair (Braid K) Msg) (x : Bool),
      (((Network.call (endOf kdf ikem)).run s before).1.state x).epoch.toNat ≤
        (s.state x).epoch.toNat + before.length := by
    intro before
    induction before with
    | nil => exact fun s x => Nat.le_add_right _ _
    | cons c rest ih =>
        intro s x
        simp only [Machine.run_cons, List.length_cons]
        have now := @call_epoch K kdf ikem s c x
        have later := ih (Network.call (endOf kdf ikem) s c).1 x
        omega
  intro before inside x
  have run := climbs before (startPair kdf secret) x
  have one : ((startPair kdf secret).state x).epoch.toNat = 1 := by cases x <;> rfl
  have length := inside.length_le
  rw [one] at run
  show (((Network.call (endOf kdf ikem)).run _ before).1.state x).epoch.toNat + 2 < 2 ^ 64
  omega

end Tacenta.Braid
