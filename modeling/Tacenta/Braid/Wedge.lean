/-
# Tacenta.Braid.Wedge -- when an epoch can no longer be finished

What a receiver can still come by of a value is the indices it holds, those in
flight, and those its stream has yet to issue (`available`).  Nothing that happens
adds to that (`call_available`): a send moves an index from the stream into
flight, and a delivery out of it.  So a receiver that waits for more than that
waits for ever (`Blocked`, `call_blocked`), as does one whose acknowledgement has
no codeword left to ride on.

With `Progress` this is exact: once all in flight is lost, an epoch can be
finished if and only if there is `Room` (`epoch_finishes_iff`).
-/
import Tacenta.Braid.Progress

set_option autoImplicit false
set_option linter.dupNamespace false

namespace Tacenta.Braid

open Tacenta.Erasure (Chunk Encoder Decoder chunkCount maxCodewords)
open Tacenta.Kem
open Tacenta.Network (Pair PairCall relay)

variable {K : Type} {kdf : Kdf K} {ikem : IncKem K} {secret : Bytes} {st st' : State K}

/-! ## What an end waits for -/

namespace State

/-- The value a state is gathering. -/
def gathering : State K → Option (Value × Decoder)
  | headerSent _ _ _ dec _ => some (.ct1, dec)
  | ekSentCt1Received _ _ _ _ dec => some (.ct2, dec)
  | noHeaderReceived _ _ dec => some (.header, dec)
  | headerReceived _ _ _ dec | ct1Sampled _ _ _ _ _ _ dec | ct1Acknowledged _ _ _ _ _ dec =>
      some (.ekVector, dec)
  | _ => none

/-- The values of its epoch a state has not come by yet. -/
def awaiting : State K → List Value
  | keysUnsampled .. | keysSampled .. | headerSent .. => [.ct1, .ct2]
  | ct1Received .. | ekSentCt1Received .. => [.ct2]
  | noHeaderReceived .. => [.header, .ekVector]
  | headerReceived .. | ct1Sampled .. | ct1Acknowledged .. => [.ekVector]
  | ekReceivedCt1Sampled .. | ct2Sampled .. | failed => []

/-- Whether a state still needs the acknowledgement of `ct1`. -/
def unacknowledged : State K → Bool
  | noHeaderReceived .. | headerReceived .. | ct1Sampled .. | ekReceivedCt1Sampled .. => true
  | _ => false

end State

/-- An index the end holds of a value of an epoch. -/
def Held (st : State K) (e : UInt64) (v : Value) (i : Nat) : Prop :=
  st.epoch = e ∧ ∃ dec, st.gathering = some (v, dec) ∧ ∃ d ∈ dec.held, d.index.toNat = i

/-- The message carries the codeword of this index. -/
def Msg.Brings (msg : Msg) (e : UInt64) (v : Value) (c : Chunk) : Prop :=
  msg.epoch = e ∧ msg.ty.value = some v ∧ msg.data = some c

/-- The indices the receiver of a value can still come by. -/
def available (s : Pair (Braid K) Msg) (e : UInt64) (v : Value) : Set Nat := fun i =>
  Held (s.state !(v.sender e)).state e v i ∨
    (∃ msg ∈ s.sent (v.sender e), ∃ c, msg.Brings e v c ∧ c.index.toNat = i) ∨
    ((s.state (v.sender e)).state.issued e v ≤ i ∧ i < maxCodewords)

/-! ## Nothing adds to what is available -/

/-- A send leaves a state that waits for the same. -/
structure Waits (st st' : State K) : Prop where
  epoch : st'.epoch = st.epoch
  gathering : st'.gathering = st.gathering
  awaiting : st'.awaiting = st.awaiting
  unacknowledged : st'.unacknowledged = st.unacknowledged

theorem stepSend_waits (rng : Rng) (alive : (stepSend kdf ikem rng st).2.2.1 ≠ .failed) :
    Waits st (stepSend kdf ikem rng st).2.2.1 := by
  cases st with
  | keysUnsampled e a =>
      simp only [stepSend] at alive ⊢
      cases generated : IncrementalKeyPair.generate ikem rng with
      | mk result rng' =>
          rw [generated] at alive
          cases result with
          | none => exact absurd rfl alive
          | some kp => exact ⟨rfl, rfl, rfl, rfl⟩
  | headerReceived e a header dec =>
      simp only [stepSend] at alive ⊢
      cases sampled : encapsulate1 ikem header rng with
      | mk result rng' =>
          rw [sampled] at alive
          cases result with
          | none => exact absurd rfl alive
          | some drawn => exact ⟨rfl, rfl, rfl, rfl⟩
  | _ => exact ⟨rfl, rfl, rfl, rfl⟩

/-- What an end holds after a receive it held before, or the message brought. -/
theorem Takes.held {msg : Msg} {out : Option (Output K)} (takes : Takes kdf ikem msg st out st')
    (alive : st' ≠ .failed) {e : UInt64} {v : Value} {i : Nat} (held : Held st' e v i) :
    Held st e v i ∨ ∃ c, msg.Brings e v c ∧ c.index.toNat = i := by
  -- One more codeword, on a decoder that was there before or is new.
  have taken : ∀ {dec : Decoder} {c : Chunk} {types : List MsgType} {ep : UInt64} {w : Value},
      (∀ t ∈ types, t.value = some w) → msg.payload ep types = some c → st'.epoch = ep →
      st'.gathering = some (w, (dec.addChunk c).1) →
      (st.epoch = ep ∧ st.gathering = some (w, dec) ∨ dec.held = []) →
        Held st e v i ∨ ∃ c, msg.Brings e v c ∧ c.index.toNat = i := by
    intro dec c types ep w same arrived epoch gathering before
    obtain ⟨⟨there, among⟩, data⟩ := Ledger.payload_eq_some.1 arrived
    obtain ⟨here, dec', gathers, d, inside, index⟩ := held
    rw [gathering, Option.some.injEq, Prod.mk.injEq] at gathers
    obtain ⟨rfl, rfl⟩ := gathers
    rcases Decoder.mem_addChunk inside with old | rfl
    · rcases before with ⟨epoch', gathering'⟩ | none_
      · exact .inl ⟨by rw [epoch', ← epoch, here], dec, gathering', d, old, index⟩
      · rw [none_] at old
        cases old
    · exact .inr ⟨d, ⟨by rw [there, ← epoch, here], same _ among, data⟩, index⟩
  have nothing : st'.gathering = none → Held st e v i ∨ ∃ c, msg.Brings e v c ∧ c.index.toNat = i := by
    intro none_
    obtain ⟨-, dec, gathers, -⟩ := held
    rw [none_] at gathers
    cases gathers
  have empty : ∀ {dec : Decoder} {w : Value}, st'.gathering = some (w, dec) → dec.held = [] →
      Held st e v i ∨ ∃ c, msg.Brings e v c ∧ c.index.toNat = i := by
    intro dec w gathering none_
    obtain ⟨-, dec', gathers, d, inside, -⟩ := held
    rw [gathering, Option.some.injEq, Prod.mk.injEq] at gathers
    obtain ⟨rfl, rfl⟩ := gathers
    rw [none_] at inside
    cases inside
  cases takes with
  | ignored => exact .inl held
  | ekInvalid | lateInvalid | ceiling => exact absurd rfl alive
  | headerProved arrived => exact taken (by simp [MsgType.value]) arrived rfl rfl (.inr rfl)
  | ekProved arrived => exact taken (by simp [MsgType.value]) arrived rfl rfl (.inr rfl)
  | ct1Chunk arrived => exact taken (by simp [MsgType.value]) arrived rfl rfl (.inl ⟨rfl, rfl⟩)
  | ct2Chunk arrived => exact taken (by simp [MsgType.value]) arrived rfl rfl (.inl ⟨rfl, rfl⟩)
  | headerChunk arrived => exact taken (by simp [MsgType.value]) arrived rfl rfl (.inl ⟨rfl, rfl⟩)
  | ekChunk arrived => exact taken (by simp [MsgType.value]) arrived rfl rfl (.inl ⟨rfl, rfl⟩)
  | ekChunkAcked arrived => exact taken (by simp [MsgType.value]) arrived rfl rfl (.inl ⟨rfl, rfl⟩)
  | lateChunk arrived => exact taken (by simp [MsgType.value]) arrived rfl rfl (.inl ⟨rfl, rfl⟩)
  | ct1Complete | ekComplete | swapped => exact nothing rfl
  | ct2Complete =>
      obtain ⟨next, raw, -, -, -, same⟩ := completeEpoch_alive alive
      exact empty (by rw [same]; rfl) rfl
  | headerComplete =>
      exact empty (by rw [(acceptHeader_alive alive).2]; rfl) rfl
  | ekCompleteAcked | acknowledged | lateComplete =>
      obtain ⟨ct2, -, same⟩ := finishEncaps_alive alive
      exact nothing (by rw [same]; rfl)

/-- What an end waits for it goes on waiting for, or the message completed it. -/
theorem Takes.awaits {msg : Msg} {out : Option (Output K)} (takes : Takes kdf ikem msg st out st')
    (alive : st' ≠ .failed) {v : Value} (awaits : v ∈ st.awaiting) :
    (st'.epoch = st.epoch ∧ v ∈ st'.awaiting) ∨ ∃ dec c, st.gathering = some (v, dec) ∧
      msg.Brings st.epoch v c ∧ (dec.addChunk c).1.message ≠ none := by
  have brought : ∀ {types : List MsgType} {ep : UInt64} {c : Chunk} {w : Value},
      (∀ t ∈ types, t.value = some w) → msg.payload ep types = some c → msg.Brings ep w c := by
    intro types ep c w same arrived
    obtain ⟨⟨there, among⟩, data⟩ := Ledger.payload_eq_some.1 arrived
    exact ⟨there, same _ among, data⟩
  cases takes with
  | ignored | headerProved | ct1Chunk | ct2Chunk | headerChunk | ekChunk | ekChunkAcked | lateChunk =>
      exact .inl ⟨rfl, awaits⟩
  | ekInvalid | lateInvalid | ceiling => exact absurd rfl alive
  | ekProved => exact .inl ⟨rfl, awaits⟩
  | ct1Complete arrived yields =>
      simp only [State.awaiting, List.mem_cons, List.not_mem_nil, or_false] at awaits
      rcases awaits with rfl | rfl
      · exact .inr ⟨_, _, rfl, brought (by simp [MsgType.value]) arrived, by simp [yields]⟩
      · exact .inl ⟨rfl, List.mem_singleton_self _⟩
  | ct2Complete arrived yields =>
      obtain rfl := List.mem_singleton.1 awaits
      exact .inr ⟨_, _, rfl, brought (by simp [MsgType.value]) arrived, by simp [yields]⟩
  | headerComplete arrived yields =>
      simp only [State.awaiting, List.mem_cons, List.not_mem_nil, or_false] at awaits
      rcases awaits with rfl | rfl
      · exact .inr ⟨_, _, rfl, brought (by simp [MsgType.value]) arrived, by simp [yields]⟩
      · rw [(acceptHeader_alive alive).2]
        exact .inl ⟨rfl, List.mem_singleton_self _⟩
  | ekCompleteAcked arrived yields | ekComplete arrived yields | lateComplete arrived yields =>
      obtain rfl := List.mem_singleton.1 awaits
      exact .inr ⟨_, _, rfl, brought (by simp [MsgType.value]) arrived, by simp [yields]⟩
  | acknowledged | swapped => cases awaits

/-- An end without the acknowledgement goes without it, or the message was one. -/
theorem Takes.unacknowledged {msg : Msg} {out : Option (Output K)}
    (takes : Takes kdf ikem msg st out st') (alive : st' ≠ .failed)
    (waits : st.unacknowledged = true) :
    (st'.epoch = st.epoch ∧ st'.unacknowledged = true) ∨
      (msg.epoch = st.epoch ∧ msg.ty = .ekCt1Ack) := by
  cases takes with
  | ignored => exact .inl ⟨rfl, waits⟩
  | headerChunk | ekChunk | ekComplete => exact .inl ⟨rfl, rfl⟩
  | ekInvalid | lateInvalid | ceiling => exact absurd rfl alive
  | headerComplete =>
      rw [(acceptHeader_alive alive).2]
      exact .inl ⟨rfl, rfl⟩
  | ekChunkAcked arrived _ acked | ekCompleteAcked arrived _ _ acked =>
      obtain ⟨⟨there, -⟩, -⟩ := Ledger.payload_eq_some.1 arrived
      exact .inr ⟨there, acked⟩
  | acknowledged current acked => exact .inr ⟨current, acked⟩
  | _ => cases waits

section Call

variable {L L' : Ledger ikem} {log log' : List (Bool × Event K)} {s : Pair (Braid K) Msg}
  {e : UInt64} {honest : ikem.Honest} {sized : kdf.Sized}

/-- What a call does to the two states. -/
theorem call_states (s : Pair (Braid K) Msg) (c : PairCall Rng) :
    (∃ x rng, c = .send x rng ∧
      ((Network.call (endOf kdf ikem) s c).1.state x).state =
        (stepSend kdf ikem rng (s.state x).state).2.2.1 ∧
      (∀ y, y ≠ x → (Network.call (endOf kdf ikem) s c).1.state y = s.state y) ∧
      (Network.call (endOf kdf ikem) s c).1.sent x =
        s.sent x ++ [(stepSend kdf ikem rng (s.state x).state).1] ∧
      ∀ y, y ≠ x → (Network.call (endOf kdf ikem) s c).1.sent y = s.sent y) ∨
    (∃ x m, m ∈ s.sent (!x) ∧
      ((Network.call (endOf kdf ikem) s c).1.state x).state =
        (stepReceive kdf ikem m (s.state x).state).2 ∧
      (∀ y, y ≠ x → (Network.call (endOf kdf ikem) s c).1.state y = s.state y) ∧
      (Network.call (endOf kdf ikem) s c).1.sent = s.sent) ∨
    (Network.call (endOf kdf ikem) s c).1 = s := by
  cases c with
  | send x rng =>
      refine .inl ⟨x, rng, rfl, ?_, fun y other => ?_, ?_, fun y other => ?_⟩
      · simp only [Network.call, Function.update_self]
        rfl
      · simp only [Network.call, Function.update_of_ne other]
      · simp only [Network.call, Function.update_self]
        rfl
      · simp only [Network.call, Function.update_of_ne other]
  | deliver x i =>
      cases found : (s.sent !x)[i]? with
      | none => exact .inr (.inr (by simp only [Network.call, found]))
      | some m =>
          refine .inr (.inl ⟨x, m, List.mem_of_getElem? found, ?_, fun y other => ?_, ?_⟩)
          · simp only [Network.call, found, Function.update_self]
            show (((s.state x).receive kdf ikem m).2).2.state = _
            rw [receive_snd]
          · simp only [Network.call, found, Function.update_of_ne other]
          · simp only [Network.call, found]

/-- What a send of this end's puts on record. -/
theorem Holds.records {x : Bool} {past : List (Event K)} {b : Braid K} (honest : ikem.Honest)
    (holds : Holds kdf secret x L past b) (rng : Rng) :
    ∃ L', Records kdf secret x L L' b.state (stepSend kdf ikem rng b.state).2.2.1
      (stepSend kdf ikem rng b.state).1 (stepSend kdf ikem rng b.state).2.1 :=
  stepSend_records honest holds.role holds.positive holds.agrees holds.freshKeys holds.freshSecrets rng

/-- **Nothing that happens adds to what a receiver can still come by.** -/
theorem call_available (under : (discipline kdf secret honest sized).Under L log s)
    (c : PairCall Rng)
    (after : (discipline kdf secret honest sized).Under L' log'
      (Network.call (endOf kdf ikem) s c).1) (v : Value) :
    available (Network.call (endOf kdf ikem) s c).1 e v ⊆ available s e v := by
  intro i here
  obtain ⟨x, rng, rfl, mover, others, sentMover, sentOthers⟩ |
    ⟨x, m, inside, mover, others, sent⟩ | same := @call_states K kdf ikem s c
  · have alive := (after.knows x).agrees.alive
    rw [mover] at alive
    have waits := stepSend_waits rng alive
    obtain ⟨L₁, records⟩ := (under.knows x).records honest rng
    generalize (Network.call (endOf kdf ikem) s (.send x rng)).1 = t at *
    rcases here with ⟨epoch, dec, gathers, d, held, index⟩ | ⟨msg, flight, c, brings, index⟩ | ⟨low, high⟩
    · -- What it holds, a send leaves.
      refine .inl ?_
      by_cases same : (!(v.sender e)) = x
      · rw [same, mover] at epoch gathers
        rw [same]
        exact ⟨waits.epoch ▸ epoch, dec, waits.gathering ▸ gathers, d, held, index⟩
      · rw [others _ same] at epoch gathers
        exact ⟨epoch, dec, gathers, d, held, index⟩
    · by_cases same : v.sender e = x
      · rw [same, sentMover] at flight
        rcases List.mem_append.1 flight with before | now
        · exact .inr (.inl ⟨msg, same ▸ before, c, brings, index⟩)
        · -- The codeword sent was still on the stream.
          obtain rfl := List.mem_singleton.1 now
          obtain ⟨rfl, type, data⟩ := brings
          obtain ⟨w, enc, type', epoch, -, -, fresh, further⟩ := records.carries c data
          rw [type] at type'
          obtain rfl := Option.some.inj type'
          rw [← epoch] at fresh
          have most := enc.position_le
          refine .inr (.inr ⟨?_, by omega⟩)
          rw [same, ← index]
          exact fresh
      · rw [sentOthers _ same] at flight
        exact .inr (.inl ⟨msg, flight, c, brings, index⟩)
    · refine .inr (.inr ⟨?_, high⟩)
      by_cases same : v.sender e = x
      · rw [same, mover] at low
        rw [same]
        exact (records.climbs.issued e v).trans low
      · rwa [others _ same] at low
  · have alive := (after.knows x).agrees.alive
    rw [mover] at alive
    have takes := stepReceive_takes kdf ikem m (s.state x).state
    generalize (Network.call (endOf kdf ikem) s c).1 = t at *
    rcases here with held | ⟨msg, flight, d, brings, index⟩ | ⟨low, high⟩
    · by_cases same : (!(v.sender e)) = x
      · rw [same, mover] at held
        rcases takes.held alive held with before | ⟨d, brings, index⟩
        · exact .inl (same ▸ before)
        · have sender : (!x) = v.sender e := by rw [← same, Bool.not_not]
          exact .inr (.inl ⟨m, sender ▸ inside, d, brings, index⟩)
      · rw [others _ same] at held
        exact .inl held
    · rw [sent] at flight
      exact .inr (.inl ⟨msg, flight, d, brings, index⟩)
    · refine .inr (.inr ⟨?_, high⟩)
      by_cases same : v.sender e = x
      · rw [same, mover] at low
        rw [same]
        exact ((takes.climbs alive).issued e v).trans low
      · rwa [others _ same] at low
  · rwa [same] at here

/-- Fewer codewords are to be had of a value than its receiver needs. -/
def Starved (s : Pair (Braid K) Msg) (e : UInt64) (v : Value) : Prop :=
  ∀ t : Finset Nat, (∀ i ∈ t, i ∈ available s e v) → t.card < chunkCount v.len

/-- **An end waits for what cannot come**: more codewords than there are to be
had, or an acknowledgement that is not in flight and has no codeword to ride on. -/
def Blocked (s : Pair (Braid K) Msg) (e : UInt64) : Prop :=
  (∃ v, (s.state !(v.sender e)).state.epoch = e ∧ v ∈ (s.state !(v.sender e)).state.awaiting ∧
    Starved s e v) ∨
  ((s.state !(head e)).state.epoch = e ∧ (s.state !(head e)).state.unacknowledged = true ∧
    (∀ msg ∈ s.sent (head e), msg.epoch = e → msg.ty ≠ .ekCt1Ack) ∧
    maxCodewords ≤ (s.state (head e)).state.issued e .ekVector)

/-- A decoder that completes has come by enough indices. -/
theorem completes_available {x : Bool} {past : List (Event K)} {v : Value} {dec : Decoder} {c : Chunk}
    (holds : Holds kdf secret x L past (s.state x)) (receiver : (!(v.sender e)) = x)
    (epoch : (s.state x).state.epoch = e) (gathering : (s.state x).state.gathering = some (v, dec))
    {msg : Msg} (inside : msg ∈ s.sent (!x)) (brings : msg.Brings e v c)
    (completes : (dec.addChunk c).1.message ≠ none) : ¬ Starved s e v := by
  intro starved
  have gathers : L.Gathers kdf secret (s.state x).state.epoch v dec := by
    have agrees := holds.agrees
    cases state : (s.state x).state <;> rw [state] at gathering agrees <;>
      simp only [State.gathering, Option.some.injEq, Prod.mk.injEq, reduceCtorEq] at gathering <;>
      obtain ⟨rfl, rfl⟩ := gathering
    · exact agrees.2.2.1
    · exact agrees.2.2.2
    · exact agrees.2
    · exact agrees.2.2
    · exact agrees.2.2.2.2
    · exact agrees.2.2.2
  have inv := Decoder.addChunk_invariant gathers.invariant c
  simp only [Decoder.invariant, Bool.and_eq_true, decide_eq_true_eq] at inv
  have full : dec.needed ≤ (dec.addChunk c).1.held.length := by
    rw [Ne, Decoder.message_eq_none, Decoder.addChunk_needed] at completes
    omega
  have distinct : (((dec.addChunk c).1.held.map fun d => d.index.toNat)).Nodup := by
    refine List.pairwise_map.2 (inv.2.imp fun {a b} other same => ?_)
    exact other (UInt16.toNat_inj.1 same)
  have few := starved ((dec.addChunk c).1.held.map fun d => d.index.toNat).toFinset fun i among => by
    obtain ⟨d, held, rfl⟩ := List.mem_map.1 (List.mem_toFinset.1 among)
    rcases Decoder.mem_addChunk held with before | rfl
    · refine .inl ?_
      rw [receiver]
      exact ⟨epoch, dec, gathering, d, before, rfl⟩
    · have sender : (!x) = v.sender e := by rw [← receiver, Bool.not_not]
      exact .inr (.inl ⟨msg, sender ▸ inside, d, brings, rfl⟩)
  rw [List.toFinset_card_of_nodup distinct, List.length_map, ← gathers.needed] at few
  omega

/-- An acknowledgement with nothing to ride on never comes. -/
theorem call_unacknowledged (under : (discipline kdf secret honest sized).Under L log s)
    (c : PairCall Rng)
    (after : (discipline kdf secret honest sized).Under L' log'
      (Network.call (endOf kdf ikem) s c).1) (h : Bool)
    (epoch : (s.state !h).state.epoch = e) (waits : (s.state !h).state.unacknowledged = true)
    (none_ : ∀ msg ∈ s.sent h, msg.epoch = e → msg.ty ≠ .ekCt1Ack)
    (dry : maxCodewords ≤ (s.state h).state.issued e .ekVector) :
    ((Network.call (endOf kdf ikem) s c).1.state !h).state.epoch = e ∧
      ((Network.call (endOf kdf ikem) s c).1.state !h).state.unacknowledged = true ∧
      (∀ msg ∈ (Network.call (endOf kdf ikem) s c).1.sent h, msg.epoch = e → msg.ty ≠ .ekCt1Ack) ∧
      maxCodewords ≤ ((Network.call (endOf kdf ikem) s c).1.state h).state.issued e .ekVector := by
  obtain ⟨x, rng, rfl, mover, others, sentMover, sentOthers⟩ |
    ⟨x, m, inside, mover, others, sent⟩ | same := @call_states K kdf ikem s c
  · have alive := (after.knows x).agrees.alive
    rw [mover] at alive
    obtain ⟨L₁, records⟩ := (under.knows x).records honest rng
    generalize (Network.call (endOf kdf ikem) s (.send x rng)).1 = t at *
    by_cases same : x = h
    · subst same
      rw [others _ (Network.not_ne x), mover, sentMover]
      refine ⟨epoch, waits, fun msg flight there => ?_, dry.trans (records.climbs.issued e .ekVector)⟩
      rcases List.mem_append.1 flight with before | now
      · exact none_ msg before there
      · -- The stream has nothing for it to ride on.
        obtain rfl := List.mem_singleton.1 now
        intro type
        obtain ⟨c, data⟩ := records.typed (by rw [type]; decide)
        obtain ⟨w, enc, type', epoch', -, -, fresh, further⟩ := records.carries c data
        rw [type] at type'
        obtain rfl : Value.ekVector = w := Option.some.inj type'
        rw [← epoch', there] at fresh
        have most := enc.position_le
        omega
    · obtain rfl := Network.eq_not_of_ne same
      have stays := stepSend_waits rng alive
      have other : h ≠ !h := (Network.not_ne h).symm
      rw [mover, stays.epoch, stays.unacknowledged, others h other, sentOthers h other]
      exact ⟨epoch, waits, none_, dry⟩
  · have alive := (after.knows x).agrees.alive
    rw [mover] at alive
    have takes := stepReceive_takes kdf ikem m (s.state x).state
    generalize (Network.call (endOf kdf ikem) s c).1 = t at *
    rw [sent]
    by_cases same : x = h
    · subst same
      rw [others _ (Network.not_ne x), mover]
      exact ⟨epoch, waits, none_, dry.trans ((takes.climbs alive).issued e .ekVector)⟩
    · obtain rfl := Network.eq_not_of_ne same
      rw [Bool.not_not] at inside
      rw [mover, others h (Network.not_ne h).symm]
      rcases takes.unacknowledged alive waits with ⟨stays, still⟩ | ⟨there, type⟩
      · exact ⟨stays.trans epoch, still, none_, dry⟩
      · exact absurd type (none_ m inside (there.trans epoch))
  · rw [same]
    exact ⟨epoch, waits, none_, dry⟩

/-- **A wait for what cannot come goes on.** -/
theorem call_blocked (under : (discipline kdf secret honest sized).Under L log s)
    (c : PairCall Rng)
    (after : (discipline kdf secret honest sized).Under L' log'
      (Network.call (endOf kdf ikem) s c).1) (blocked : Blocked s e) :
    Blocked (Network.call (endOf kdf ikem) s c).1 e := by
  rcases blocked with ⟨v, epoch, awaits, starved⟩ | ⟨epoch, waits, none_, dry⟩
  · refine .inl ⟨v, ?_⟩
    have starved' : Starved (Network.call (endOf kdf ikem) s c).1 e v := fun t all =>
      starved t fun i among => call_available under c after v (all i among)
    suffices kept : ((Network.call (endOf kdf ikem) s c).1.state !(v.sender e)).state.epoch = e ∧
        v ∈ ((Network.call (endOf kdf ikem) s c).1.state !(v.sender e)).state.awaiting from
      ⟨kept.1, kept.2, starved'⟩
    obtain ⟨x, rng, rfl, mover, others, -, -⟩ | ⟨x, m, inside, mover, others, -⟩ | same :=
      @call_states K kdf ikem s c
    · by_cases same : (!(v.sender e)) = x
      · have alive := (after.knows x).agrees.alive
        rw [mover] at alive
        have stays := stepSend_waits rng alive
        rw [same] at epoch awaits ⊢
        rw [mover, stays.epoch, stays.awaiting]
        exact ⟨epoch, awaits⟩
      · rw [others _ same]
        exact ⟨epoch, awaits⟩
    · by_cases same : (!(v.sender e)) = x
      · have alive := (after.knows x).agrees.alive
        rw [mover] at alive
        rw [same] at epoch awaits ⊢
        rw [mover]
        rcases (stepReceive_takes kdf ikem m (s.state x).state).awaits alive awaits with
          ⟨stays, still⟩ | ⟨dec, c, gathering, brings, completes⟩
        · exact ⟨stays.trans epoch, still⟩
        · rw [epoch] at brings
          exact absurd starved (completes_available (under.knows x) same epoch gathering inside
            brings completes)
      · rw [others _ same]
        exact ⟨epoch, awaits⟩
    · rw [same]
      exact ⟨epoch, awaits⟩
  · exact .inr (call_unacknowledged under c after _ epoch waits none_ dry)

end Call

/-! ## Waiting for ever -/

section Runs

variable {x : Bool} {L : Ledger ikem} {log : List (Bool × Event K)} {s : Pair (Braid K) Msg}
  {e : UInt64} {honest : ikem.Honest} {sized : kdf.Sized}

/-- **Two ends that know what they should are in a joint state.** -/
theorem under_joint (under : (discipline kdf secret honest sized).Under L log s) :
    ∃ e, Joint e (s.state (head e)).state (s.state !(head e)).state := by
  have mine := under.knows true
  have theirs := under.knows false
  have needs := mine.needs
  have needs' := theirs.needs
  rw [Bool.not_true, theirs.stage] at needs
  rw [Bool.not_false, mine.stage] at needs'
  obtain ⟨e, ⟨own, joint⟩ | ⟨own, joint⟩⟩ := joint_of_needs mine.role theirs.role needs needs'
  · exact ⟨e, by rw [own]; exact joint⟩
  · exact ⟨e, by rw [own]; exact joint⟩

/-- An end that waits for anything is not behind its peer. -/
theorem Joint.waits_epoch (joint : Joint e st st') :
    (st.awaiting ≠ [] ∨ st.unacknowledged = true → st'.epoch.toNat ≤ st.epoch.toNat) ∧
      (st'.awaiting ≠ [] ∨ st'.unacknowledged = true → st.epoch.toNat ≤ st'.epoch.toNat) := by
  cases joint with
  | turned next =>
      refine ⟨fun _ => ?_, fun waits => ?_⟩
      · simp only [State.epoch]
        omega
      · simp [State.awaiting, State.unacknowledged] at waits
  | _ => exact ⟨fun _ => le_rfl, fun _ => le_rfl⟩

theorem blocked_epoch (under : (discipline kdf secret honest sized).Under L log s)
    (blocked : Blocked s e) (y : Bool) : (s.state y).epoch.toNat ≤ e.toNat := by
  -- Whoever waits is in the epoch, and its peer not past it.
  obtain ⟨r, epoch, waits⟩ : ∃ r, (s.state r).state.epoch = e ∧
      ((s.state r).state.awaiting ≠ [] ∨ (s.state r).state.unacknowledged = true) := by
    rcases blocked with ⟨v, epoch, awaits, -⟩ | ⟨epoch, waits, -, -⟩
    · exact ⟨_, epoch, .inl (List.ne_nil_of_mem awaits)⟩
    · exact ⟨_, epoch, .inr waits⟩
  show (s.state y).state.epoch.toNat ≤ e.toNat
  by_cases same : y = r
  · rw [same, epoch]
  obtain rfl := Network.eq_not_of_ne same
  obtain ⟨e', joint⟩ := under_joint under
  rw [← epoch]
  by_cases first : r = head e'
  · rw [first]
    exact joint.waits_epoch.1 (first ▸ waits)
  · have second : (!r) = head e' := by rw [Network.eq_not_of_ne first, Bool.not_not]
    rw [← second, Bool.not_not] at joint
    exact joint.waits_epoch.2 waits

/-- **No run gets a blocked pair past its epoch.** -/
theorem run_blocked (under : (discipline kdf secret honest sized).Under L log s)
    (below : e.toNat + 2 < 2 ^ 64) (blocked : Blocked s e) (more : List (PairCall Rng)) (y : Bool) :
    (((Network.call (endOf kdf ikem)).run s more).1.state y).epoch.toNat ≤ e.toNat := by
  induction more generalizing L log s with
  | nil => exact blocked_epoch under blocked y
  | cons c rest ih =>
      have fine : ∀ z, (s.state z).epoch.toNat + 2 < 2 ^ 64 := fun z => by
        have behind := blocked_epoch under blocked z
        omega
      obtain ⟨L', after⟩ := under.call fine c
      rw [Machine.run_cons]
      exact ih after (call_blocked under c after blocked)

/-! ## Without room the pair is blocked -/

/-- Too few indices held and left to issue, with nothing in flight. -/
theorem starved_forget {v : Value} (l : List Chunk)
    (holds : ∀ i, Held (s.state !(v.sender e)).state e v i → i ∈ l.map fun d => d.index.toNat)
    (few : l.length + (maxCodewords - (s.state (v.sender e)).state.issued e v) < chunkCount v.len) :
    Starved s.forget e v := by
  intro t all
  have inside : t ⊆ (l.map fun d => d.index.toNat).toFinset ∪
      Finset.Ico ((s.state (v.sender e)).state.issued e v) maxCodewords := by
    intro i among
    rcases all i among with held | ⟨msg, flight, -⟩ | ⟨low, high⟩
    · exact Finset.mem_union_left _ (List.mem_toFinset.2 (holds i held))
    · cases flight
    · exact Finset.mem_union_right _ (Finset.mem_Ico.2 ⟨low, high⟩)
  have counts := (Finset.card_le_card inside).trans (Finset.card_union_le _ _)
  have listed := List.toFinset_card_le (l.map fun d => d.index.toNat)
  rw [List.length_map] at listed
  rw [Nat.card_Ico] at counts
  omega

theorem held_gathering {v : Value} {dec : Decoder} (gathering : st.gathering = some (v, dec)) (i : Nat)
    (held : Held st e v i) : i ∈ dec.held.map fun d => d.index.toNat := by
  obtain ⟨-, dec', gathers, d, inside, rfl⟩ := held
  rw [gathering, Option.some.injEq, Prod.mk.injEq] at gathers
  obtain ⟨-, rfl⟩ := gathers
  exact List.mem_map_of_mem inside

theorem held_none {v : Value} (gathering : st.gathering = none) (i : Nat) (held : Held st e v i) :
    i ∈ ([] : List Chunk).map fun d => d.index.toNat := by
  obtain ⟨-, dec, gathers, -⟩ := held
  rw [gathering] at gathers
  cases gathers

/-- **Without room on some stream the pair is blocked**, once what was in flight
is lost. -/
theorem blocked_of_no_room (under : (discipline kdf secret honest sized).Under L log s)
    (joint : Joint e (s.state (head e)).state (s.state !(head e)).state)
    (none_ : ¬ Room (s.state (head e)).state (s.state !(head e)).state) : Blocked s.forget e := by
  have agrees := (under.knows (head e)).agrees
  have agrees' := (under.knows !(head e)).agrees
  -- A value of the header's sender, and one of its peer's.
  have first : ∀ (v : Value) (l : List Chunk), v.sender e = head e →
      (s.state !(head e)).state.epoch = e → v ∈ (s.state !(head e)).state.awaiting →
      (∀ i, Held (s.state !(head e)).state e v i → i ∈ l.map fun d => d.index.toNat) →
      l.length + (maxCodewords - (s.state (head e)).state.issued e v) < chunkCount v.len →
        Blocked s.forget e := by
    intro v l sender epoch awaits holds few
    refine .inl ⟨v, by rwa [sender], by rwa [sender], starved_forget l ?_ ?_⟩
    · rwa [sender]
    · rwa [sender]
  have second : ∀ (v : Value) (l : List Chunk), v.sender e = !(head e) →
      (s.state (head e)).state.epoch = e → v ∈ (s.state (head e)).state.awaiting →
      (∀ i, Held (s.state (head e)).state e v i → i ∈ l.map fun d => d.index.toNat) →
      l.length + (maxCodewords - (s.state !(head e)).state.issued e v) < chunkCount v.len →
        Blocked s.forget e := by
    intro v l sender epoch awaits holds few
    refine .inl ⟨v, by rwa [sender, Bool.not_not], by rwa [sender, Bool.not_not],
      starved_forget l ?_ ?_⟩
    · rwa [sender, Bool.not_not]
    · rwa [sender]
  have third : (s.state !(head e)).state.epoch = e → (s.state !(head e)).state.unacknowledged = true →
      maxCodewords ≤ (s.state (head e)).state.issued e .ekVector → Blocked s.forget e :=
    fun epoch waits dry => .inr ⟨epoch, waits, fun msg flight => (by cases flight), dry⟩
  generalize (s.state (head e)).state = st at *
  generalize (s.state !(head e)).state = st' at *
  have limit : maxCodewords = 65536 := rfl
  have dry : ∀ enc : Encoder, ¬ 0 < left enc → maxCodewords ≤ enc.position := by
    intro enc none_
    unfold left at none_
    omega
  cases joint with
  | @sampled a a' kp enc dec =>
      have sized := agrees'.2.needed
      simp only [Room] at none_
      refine first .header dec.held rfl rfl (by simp [State.awaiting]) (held_gathering rfl) ?_
      rw [show State.issued (.keysSampled e a kp enc) e .header = _ from State.issued_live rfl]
      unfold left at none_
      omega
  | @drawn a a' kp hdrEnc enc header ct1 encaps dec =>
      simp only [Room] at none_
      refine second .ct1 [] rfl rfl (by simp [State.awaiting]) (held_none rfl) ?_
      rw [show State.issued (.ct1Sampled e a' header encaps ct1 enc dec) e .ct1 = _ from
        State.issued_live rfl]
      unfold left at none_
      simp only [List.length_nil, Value.len]
      omega
  | @proved a a' kp ct1Dec ekDec ekEnc enc header ct1 encaps =>
      have sized := agrees.2.2.1.needed
      have sized' := agrees'.2.2.2.2.needed
      simp only [Room, not_and_or] at none_
      rcases none_ with short | short
      · refine second .ct1 ct1Dec.held rfl rfl (by simp [State.awaiting]) (held_gathering rfl) ?_
        rw [show State.issued (.ct1Sampled e a' header encaps ct1 enc ekDec) e .ct1 = _ from
          State.issued_live rfl]
        unfold left at short
        omega
      · refine first .ekVector ekDec.held rfl rfl (by simp [State.awaiting]) (held_gathering rfl) ?_
        rw [show State.issued (.headerSent e a kp ct1Dec ekEnc) e .ekVector = _ from
          State.issued_live rfl]
        unfold left at short
        omega
  | @gathered a a' kp ct1Dec ekEnc enc ct1 ekVector encaps =>
      have sized := agrees.2.2.1.needed
      simp only [Room, not_and_or] at none_
      rcases none_ with short | short
      · refine second .ct1 ct1Dec.held rfl rfl (by simp [State.awaiting]) (held_gathering rfl) ?_
        rw [show State.issued (.ekReceivedCt1Sampled e a' encaps ct1 ekVector enc) e .ct1 = _ from
          State.issued_live rfl]
        unfold left at short
        omega
      · refine third rfl rfl ?_
        rw [show State.issued (.headerSent e a kp ct1Dec ekEnc) e .ekVector = _ from
          State.issued_live rfl]
        exact dry ekEnc short
  | @answered a a' kp ekDec ekEnc enc mine header ct1 encaps =>
      have sized' := agrees'.2.2.2.2.needed
      simp only [Room] at none_
      refine first .ekVector ekDec.held rfl rfl (by simp [State.awaiting]) (held_gathering rfl) ?_
      rw [show State.issued (.ct1Received e a kp mine ekEnc) e .ekVector = _ from
        State.issued_live rfl]
      unfold left at none_
      omega
  | @both a a' kp ekEnc enc mine ct1 ekVector encaps =>
      refine third rfl rfl ?_
      rw [show State.issued (.ct1Received e a kp mine ekEnc) e .ekVector = _ from
        State.issued_live rfl]
      exact dry ekEnc none_
  | @acknowledged a a' kp ekDec ekEnc mine header ct1 encaps =>
      have sized' := agrees'.2.2.2.needed
      simp only [Room] at none_
      refine first .ekVector ekDec.held rfl rfl (by simp [State.awaiting]) (held_gathering rfl) ?_
      rw [show State.issued (.ct1Received e a kp mine ekEnc) e .ekVector = _ from
        State.issued_live rfl]
      unfold left at none_
      omega
  | @finishing a a' kp ekEnc enc mine =>
      simp only [Room] at none_
      refine second .ct2 [] rfl rfl (by simp [State.awaiting]) (held_none rfl) ?_
      rw [show State.issued (.ct2Sampled e a' enc) e .ct2 = _ from State.issued_live rfl]
      unfold left at none_
      simp only [List.length_nil, Value.len]
      omega
  | @closing a a' kp dec enc mine =>
      have sized := agrees.2.2.2.needed
      simp only [Room] at none_
      refine second .ct2 dec.held rfl rfl (by simp [State.awaiting]) (held_gathering rfl) ?_
      rw [show State.issued (.ct2Sampled e a' enc) e .ct2 = _ from State.issued_live rfl]
      unfold left at none_
      omega
  | unsampled | accepted | turned => exact absurd trivial none_

end Runs

/-! ## The condition, exactly -/

/-- The epoch the pair is at: the one the slower end is in. -/
def current (s : Pair (Braid K) Msg) : UInt64 :=
  if (s.state true).epoch ≤ (s.state false).epoch then (s.state true).epoch
  else (s.state false).epoch

/-- Whether every stream of the current epoch still has what its receiver lacks. -/
def HasRoom (s : Pair (Braid K) Msg) : Prop :=
  Room (s.state (head (current s))).state (s.state !(head (current s))).state

theorem Joint.epochs {e : UInt64} (joint : Joint e st st') :
    st'.epoch = e ∧ e.toNat ≤ st.epoch.toNat := by
  cases joint with
  | turned next =>
      refine ⟨rfl, ?_⟩
      simp only [State.epoch]
      omega
  | _ => exact ⟨rfl, le_rfl⟩

theorem current_of_joint {s : Pair (Braid K) Msg} {e : UInt64}
    (joint : Joint e (s.state (head e)).state (s.state !(head e)).state) : current s = e := by
  obtain ⟨behind, ahead⟩ := joint.epochs
  have slower : (s.state !(head e)).epoch = e := behind
  have faster : e ≤ (s.state (head e)).epoch := UInt64.le_iff_toNat_le.2 ahead
  unfold current
  cases own : head e with
  | true =>
      rw [own, Bool.not_true] at slower
      rw [own] at faster
      rw [slower]
      split
      · exact UInt64.le_antisymm ‹_› faster
      · rfl
  | false =>
      rw [own, Bool.not_false] at slower
      rw [own] at faster
      rw [slower, if_pos faster]

/-- The epoch of two ends below the last epochs is below them. -/
theorem Joint.below {s : Pair (Braid K) Msg} {e : UInt64}
    (joint : Joint e (s.state (head e)).state (s.state !(head e)).state)
    (low : ∀ x, (s.state x).epoch.toNat + 2 < 2 ^ 64) : e.toNat + 2 < 2 ^ 64 := by
  have behind := low !(head e)
  rwa [show (s.state !(head e)).epoch = e from joint.epochs.1] at behind

/-- Nothing is finished from where no run goes past, and something where there is
room. -/
theorem finishes_iff {honest : ikem.Honest} {sized : kdf.Sized} {L : Ledger ikem}
    {log : List (Bool × Event K)} {s : Pair (Braid K) Msg}
    (under : (discipline kdf secret honest sized).Under L log s)
    (low : ∀ x, (s.state x).epoch.toNat + 2 < 2 ^ 64) :
    ((∃ schedule, Finishes kdf ikem (current s) log s.forget schedule) ↔ HasRoom s) ∧
    (¬ HasRoom s → ∀ more x,
      (((Network.call (endOf kdf ikem)).run s.forget more).1.state x).epoch.toNat ≤
        (current s).toNat) := by
  have lost := under.forget
  obtain ⟨e, joint⟩ := under_joint under
  have now := current_of_joint joint
  have ceiling := joint.below low
  rw [HasRoom, now]
  have never : ¬ Room (s.state (head e)).state (s.state !(head e)).state → ∀ more x,
      (((Network.call (endOf kdf ikem)).run s.forget more).1.state x).epoch.toNat ≤ e.toNat :=
    fun none_ more x => run_blocked lost ceiling (blocked_of_no_room under joint none_) more x
  refine ⟨⟨fun ⟨schedule, finishes⟩ => ?_, fun some_ => ?_⟩, never⟩
  · by_contra none_
    obtain ⟨more, same, -⟩ := Network.relay_run (endOf kdf ikem) s.forget schedule
    have past := (finishes true).1
    rw [same] at past
    have stays := never none_ more true
    omega
  · obtain ⟨schedule, finishes, -⟩ := room_finishes lost ceiling joint some_
    exact ⟨schedule, finishes⟩

/-- **An epoch can be finished exactly when there is room.**  Take the two ends of
a Braid anywhere a run has left them, below the last epochs, with all that is in
flight lost.  If every stream of the current epoch still has the codewords its
receiver lacks, and the `ek_vector` one is left where only the acknowledgement has
yet to ride on it, then some schedule of sends, each handed over at once, takes both
ends past the epoch with its key emitted by both.  If not, then no run whatever
takes either past it. -/
theorem epoch_finishes_iff (sized : kdf.Sized) (honest : ikem.Honest) (secret : Bytes)
    (calls : List (PairCall Rng)) (below : BelowCeiling kdf ikem secret calls) :
    ((∃ schedule, Finishes kdf ikem (current (pairRun kdf ikem secret calls).1)
        (pairRun kdf ikem secret calls).2 (pairRun kdf ikem secret calls).1.forget schedule) ↔
      HasRoom (pairRun kdf ikem secret calls).1) ∧
    (¬ HasRoom (pairRun kdf ikem secret calls).1 → ∀ more x,
      (((Network.call (endOf kdf ikem)).run (pairRun kdf ikem secret calls).1.forget
        more).1.state x).epoch.toNat ≤ (current (pairRun kdf ikem secret calls).1).toNat) := by
  obtain ⟨L, under⟩ := run_under honest sized below
  exact finishes_iff under (below calls List.prefix_rfl)

/-! ## How soon -/

/-- An end waits for no more than fifty-three messages: three for the header, and
then the vector and its acknowledgement. -/
theorem lacks_le {ikem : IncKem K} {L : Ledger ikem} (agrees : L.Agrees kdf secret st) (e : UInt64) :
    st.lacks e ≤ 53 := by
  cases st with
  | keysUnsampled | keysSampled | ct1Received | headerReceived | ekReceivedCt1Sampled | ct2Sampled =>
      simp [State.lacks]
  | headerSent e' a kp dec enc =>
      have sized : dec.needed = 44 := agrees.2.2.1.needed
      simp only [State.lacks]
      omega
  | ekSentCt1Received e' a kp ct1 dec =>
      have sized : dec.needed = 6 := agrees.2.2.2.needed
      simp only [State.lacks]
      omega
  | noHeaderReceived e' a dec =>
      have sized : dec.needed = 3 := agrees.2.needed
      simp only [State.lacks]
      split <;> omega
  | ct1Sampled e' a header encaps ct1 enc dec =>
      have sized : dec.needed = 48 := agrees.2.2.2.2.needed
      simp only [State.lacks]
      omega
  | ct1Acknowledged e' a header encaps ct1 dec =>
      have sized : dec.needed = 48 := agrees.2.2.2.needed
      simp only [State.lacks]
      omega
  | failed => exact absurd agrees id

/-- **An epoch that can be finished can be finished soon.**  Anywhere a run below the
last epochs has left the two ends, with all that is in flight lost, no more than
`107` sends handed over at once take both past an epoch there is room for. -/
theorem epoch_finishes_within (sized : kdf.Sized) (honest : ikem.Honest) (secret : Bytes)
    (calls : List (PairCall Rng)) (below : BelowCeiling kdf ikem secret calls)
    (room : HasRoom (pairRun kdf ikem secret calls).1) :
    ∃ schedule, schedule.length ≤ 107 ∧
      Finishes kdf ikem (current (pairRun kdf ikem secret calls).1)
        (pairRun kdf ikem secret calls).2 (pairRun kdf ikem secret calls).1.forget schedule := by
  obtain ⟨L, under⟩ := run_under honest sized below
  have low := below calls List.prefix_rfl
  generalize pairRun kdf ikem secret calls = result at *
  obtain ⟨s, log⟩ := result
  simp only at under low room ⊢
  obtain ⟨e, joint⟩ := under_joint under
  have now := current_of_joint joint
  have ceiling := joint.below low
  rw [HasRoom, now] at room
  obtain ⟨schedule, finishes, length⟩ := room_finishes under.forget ceiling joint room
  have mine := lacks_le (under.knows (head e)).agrees e
  have theirs := lacks_le (under.knows !(head e)).agrees e
  rw [now]
  refine ⟨schedule, length.trans ?_, finishes⟩
  show (s.state (head e)).state.lacks e + (s.state !(head e)).state.lacks e + 1 ≤ 107
  omega

/-! ## Sends alone, all lost -/

/-- The ends after the initiator has sent `n` messages and none arrived. -/
theorem sends_state (honest : ikem.Honest) (rngs : List Rng) :
    ((pairRun kdf ikem secret (rngs.map (PairCall.send true))).1.state false) =
        Braid.responder kdf secret ∧
      (rngs = [] ∧ (pairRun kdf ikem secret (rngs.map (PairCall.send true))).1.state true =
          Braid.initiator kdf secret ∨
        ∃ kp m, (pairRun kdf ikem secret (rngs.map (PairCall.send true))).1.state true =
          ⟨.keysSampled 1 (Auth.init kdf 1 secret) kp
            (Encoder.at_ (Encoder.new m).chunks rngs.length)⟩) := by
  induction rngs using List.reverseRecOn with
  | nil => exact ⟨rfl, .inl ⟨rfl, rfl⟩⟩
  | append_singleton rngs rng ih =>
      obtain ⟨peer, own⟩ := ih
      have last : (pairRun kdf ikem secret ((rngs ++ [rng]).map (PairCall.send true))).1 =
          (Network.call (endOf kdf ikem)
            (pairRun kdf ikem secret (rngs.map (PairCall.send true))).1 (.send true rng)).1 := by
        rw [List.map_append]
        show ((Network.call (endOf kdf ikem)).run _ _).1 = _
        rw [Machine.run_append_fst]
        rfl
      rw [last]
      generalize (pairRun kdf ikem secret (rngs.map (PairCall.send true))).1 = s at *
      have moved : (Network.call (endOf kdf ikem) s (.send true rng)).1.state true =
          ⟨(stepSend kdf ikem rng (s.state true).state).2.2.1⟩ := by
        simp only [Network.call, Function.update_self]
        rfl
      refine ⟨?_, .inr ?_⟩
      · simp only [Network.call, Function.update_of_ne Bool.false_ne_true]
        exact peer
      rw [moved, List.length_append, List.length_singleton]
      obtain ⟨rfl, first⟩ | ⟨kp, m, there⟩ := own
      · obtain ⟨kp, rng', drawn, -⟩ := generate_honest honest rng
        rw [first]
        refine ⟨kp, kp.header ikem ++ (Auth.init kdf 1 secret).macHdr kdf 1 (kp.header ikem), ?_⟩
        simp only [Braid.initiator, stepSend, drawn]
        rw [Encoder.new_at, Encoder.nextChunk_at]
        rfl
      · rw [there]
        refine ⟨kp, m, ?_⟩
        simp only [stepSend, Encoder.nextChunk_at]

theorem sends_epoch (honest : ikem.Honest) (rngs : List Rng) (x : Bool) :
    ((pairRun kdf ikem secret (rngs.map (PairCall.send true))).1.state x).epoch = 1 := by
  obtain ⟨peer, ⟨-, own⟩ | ⟨kp, m, own⟩⟩ := @sends_state K kdf ikem secret honest rngs
  · cases x
    · rw [peer]
      rfl
    · rw [own]
      rfl
  · cases x
    · rw [peer]
      rfl
    · rw [own]
      rfl

theorem sends_below (honest : ikem.Honest) (rngs : List Rng) :
    BelowCeiling kdf ikem secret (rngs.map (PairCall.send true)) := by
  intro before inside x
  obtain ⟨rest, split⟩ := inside
  obtain ⟨some_, later, -, same, -⟩ := List.map_eq_append_iff.1 split.symm
  rw [← same, sends_epoch honest]
  decide

theorem sends_current (honest : ikem.Honest) (rngs : List Rng) :
    current (pairRun kdf ikem secret (rngs.map (PairCall.send true))).1 = 1 := by
  rw [current, sends_epoch honest, sends_epoch honest]
  rfl

theorem sends_room (honest : ikem.Honest) (rngs : List Rng) :
    HasRoom (pairRun kdf ikem secret (rngs.map (PairCall.send true))).1 ↔
      rngs.length + 3 ≤ 65536 := by
  rw [HasRoom, sends_current honest]
  show Room ((pairRun kdf ikem secret (rngs.map (PairCall.send true))).1.state true).state
    ((pairRun kdf ikem secret (rngs.map (PairCall.send true))).1.state false).state ↔ _
  obtain ⟨peer, ⟨rfl, own⟩ | ⟨kp, m, own⟩⟩ := @sends_state K kdf ikem secret honest rngs
  · rw [own, peer]
    exact ⟨fun _ => by decide, fun _ => trivial⟩
  · rw [own, peer]
    have needed : hdrDecoder.needed = 3 := by decide
    have held : hdrDecoder.held.length = 0 := rfl
    have limit : maxCodewords = 65536 := rfl
    simp only [Braid.responder, Room, left, Encoder.position_at, needed, held, limit]
    omega

/-- **Messages lost by one side alone wedge the pair.**  After the initiator has sent
some messages and every one is lost, the first epoch can be finished if and only
if they were no more than `65533`: the header's three codewords are still to
come. -/
theorem lost_sends_finish_iff (sized : kdf.Sized) (honest : ikem.Honest) (secret : Bytes)
    (rngs : List Rng) :
    (∃ schedule, Finishes kdf ikem 1 (pairRun kdf ikem secret (rngs.map (PairCall.send true))).2
      (pairRun kdf ikem secret (rngs.map (PairCall.send true))).1.forget schedule) ↔
        rngs.length + 3 ≤ 65536 := by
  obtain ⟨L, under⟩ := run_under honest sized (@sends_below K kdf ikem secret honest rngs)
  have exact_ := (finishes_iff under fun x => by
    rw [sends_epoch honest]
    decide).1
  rwa [sends_current honest, sends_room honest] at exact_

/-! ## On the sample primitives -/

/-- The initiator sends `65534` times, and nothing arrives. -/
def lonely : List (PairCall Rng) := (List.replicate 65534 fun _ => 0).map (PairCall.send true)

/-- The header's stream is down to two codewords, the responder needs three, and no
schedule finishes the first epoch. -/
theorem lost_sends_wedge : BelowCeiling Sample.kdf (Sample.incKem id) [] lonely ∧
    ¬ ∃ schedule, Finishes Sample.kdf (Sample.incKem id)
      (current (pairRun Sample.kdf (Sample.incKem id) [] lonely).1)
      (pairRun Sample.kdf (Sample.incKem id) [] lonely).2
      (pairRun Sample.kdf (Sample.incKem id) [] lonely).1.forget schedule := by
  have honest := Sample.incKem_honest (id : Arr 32 → Secret)
  refine ⟨sends_below honest _, fun finishes => ?_⟩
  unfold lonely at finishes
  rw [sends_current honest, lost_sends_finish_iff Sample.kdf_sized honest,
    List.length_replicate] at finishes
  exact absurd finishes (by decide)

/-- From the start the first epoch can be finished, and then both ends have its
key. -/
theorem braid_agreement_first : ∃ calls o o',
    (true, Event.emitted o) ∈ (pairRun Sample.kdf (Sample.incKem id) [] calls).2 ∧
    (false, Event.emitted o') ∈ (pairRun Sample.kdf (Sample.incKem id) [] calls).2 ∧
    o.keyEpoch = 1 ∧ o'.keyEpoch = 1 ∧ o.key = o'.key := by
  have honest := Sample.incKem_honest (id : Arr 32 → Secret)
  obtain ⟨schedule, finishes, length⟩ := room_finishes (x := true) (e := 1)
    (@start_under _ Sample.kdf _ [] honest Sample.kdf_sized) (by decide) .unsampled trivial
  obtain ⟨calls, same, twice⟩ := Network.relay_run (endOf Sample.kdf (Sample.incKem id))
    (startPair Sample.kdf []) schedule
  have few : schedule.length ≤ 105 := length
  have below : BelowCeiling Sample.kdf (Sample.incKem id) [] calls :=
    belowCeiling_of_length (by omega)
  obtain ⟨-, o, mine, epoch⟩ := finishes true
  obtain ⟨-, o', theirs, epoch'⟩ := finishes false
  rw [List.nil_append, same] at mine theirs
  obtain ⟨-, equal, -⟩ := braid_agreement Sample.kdf_sized honest [] calls below
  exact ⟨calls, o, o', mine, theirs, epoch, epoch', equal _ _ _ _ mine theirs (epoch.trans epoch'.symm)⟩

/-- After one header codeword is lost a hundred and seven messages are enough. -/
theorem epoch_finishes_within_one_lost : ∃ schedule : List (Bool × Rng), schedule.length ≤ 107 ∧
    Finishes Sample.kdf (Sample.incKem id) 1
      (pairRun Sample.kdf (Sample.incKem id) [] [.send true fun _ => 0]).2
      (pairRun Sample.kdf (Sample.incKem id) [] [.send true fun _ => 0]).1.forget schedule := by
  have honest := Sample.incKem_honest (id : Arr 32 → Secret)
  have finishes := epoch_finishes_within Sample.kdf_sized honest [] [.send true fun _ => 0]
    (sends_below honest [fun _ => 0]) ((sends_room honest [fun _ => 0]).2 (by decide))
  rwa [show current (pairRun Sample.kdf (Sample.incKem id) [] [.send true fun _ => 0]).1 = 1 from
    sends_current honest [fun _ => 0]] at finishes

/-- After one header codeword is lost the first epoch can still be finished. -/
theorem epoch_finishes_one_lost : ∃ schedule,
    Finishes Sample.kdf (Sample.incKem id) 1
      (pairRun Sample.kdf (Sample.incKem id) [] [.send true fun _ => 0]).2
      (pairRun Sample.kdf (Sample.incKem id) [] [.send true fun _ => 0]).1.forget schedule := by
  have honest := Sample.incKem_honest (id : Arr 32 → Secret)
  have finishes := (epoch_finishes_iff Sample.kdf_sized honest [] [.send true fun _ => 0]
    (sends_below honest [fun _ => 0])).1.2 ((sends_room honest [fun _ => 0]).2 (by decide))
  rwa [show current (pairRun Sample.kdf (Sample.incKem id) [] [.send true fun _ => 0]).1 = 1 from
    sends_current honest [fun _ => 0]] at finishes

end Tacenta.Braid
