/-
# Tacenta.Braid.Progress -- when an epoch can still be finished

Each end waits for one thing at a time, and what it waits for is a stream of
`2^16` codewords that runs dry: the header, then `ct1`, `ek_vector` with the
acknowledgement on it, `ct2`.  Two live ends are always in one of twelve joint
states (`Joint`, `joint_of_needs`).  In each, `Room` says that every stream still
has the codewords its receiver lacks.

That is enough: with `Room`, one more message relayed brings the epoch closer and
leaves `Room` (`pass_advances`), so some schedule of sends, each handed over at
once, finishes it (`room_finishes`).
-/
import Tacenta.Braid.Agreement

set_option autoImplicit false
set_option linter.dupNamespace false

namespace Tacenta.Braid

open Tacenta.Erasure (Chunk Encoder Decoder chunkCount maxCodewords)
open Tacenta.Kem
open Tacenta.Network (Pair PairCall relay)

variable {K : Type} {kdf : Kdf K} {ikem : IncKem K} {secret : Bytes} {st st' : State K}

/-! ## The joint states -/

/-- **Where two live ends can be**, the sender of the epoch's header first. -/
inductive Joint (e : UInt64) : State K → State K → Prop
  | unsampled {a a' : Auth K} {dec : Decoder} :
      Joint e (.keysUnsampled e a) (.noHeaderReceived e a' dec)
  | sampled {a a' : Auth K} {kp : IncrementalKeyPair} {enc : Encoder} {dec : Decoder} :
      Joint e (.keysSampled e a kp enc) (.noHeaderReceived e a' dec)
  | accepted {a a' : Auth K} {kp : IncrementalKeyPair} {enc : Encoder} {header : Bytes}
      {dec : Decoder} : Joint e (.keysSampled e a kp enc) (.headerReceived e a' header dec)
  | drawn {a a' : Auth K} {kp : IncrementalKeyPair} {hdrEnc enc : Encoder} {header ct1 : Bytes}
      {encaps : EncapsState} {dec : Decoder} :
      Joint e (.keysSampled e a kp hdrEnc) (.ct1Sampled e a' header encaps ct1 enc dec)
  | proved {a a' : Auth K} {kp : IncrementalKeyPair} {ct1Dec ekDec : Decoder} {ekEnc enc : Encoder}
      {header ct1 : Bytes} {encaps : EncapsState} :
      Joint e (.headerSent e a kp ct1Dec ekEnc) (.ct1Sampled e a' header encaps ct1 enc ekDec)
  | gathered {a a' : Auth K} {kp : IncrementalKeyPair} {ct1Dec : Decoder} {ekEnc enc : Encoder}
      {ct1 ekVector : Bytes} {encaps : EncapsState} :
      Joint e (.headerSent e a kp ct1Dec ekEnc) (.ekReceivedCt1Sampled e a' encaps ct1 ekVector enc)
  | answered {a a' : Auth K} {kp : IncrementalKeyPair} {ekDec : Decoder} {ekEnc enc : Encoder}
      {mine header ct1 : Bytes} {encaps : EncapsState} :
      Joint e (.ct1Received e a kp mine ekEnc) (.ct1Sampled e a' header encaps ct1 enc ekDec)
  | both {a a' : Auth K} {kp : IncrementalKeyPair} {ekEnc enc : Encoder} {mine ct1 ekVector : Bytes}
      {encaps : EncapsState} :
      Joint e (.ct1Received e a kp mine ekEnc) (.ekReceivedCt1Sampled e a' encaps ct1 ekVector enc)
  | acknowledged {a a' : Auth K} {kp : IncrementalKeyPair} {ekDec : Decoder} {ekEnc : Encoder}
      {mine header ct1 : Bytes} {encaps : EncapsState} :
      Joint e (.ct1Received e a kp mine ekEnc) (.ct1Acknowledged e a' header encaps ct1 ekDec)
  | finishing {a a' : Auth K} {kp : IncrementalKeyPair} {ekEnc enc : Encoder} {mine : Bytes} :
      Joint e (.ct1Received e a kp mine ekEnc) (.ct2Sampled e a' enc)
  | closing {a a' : Auth K} {kp : IncrementalKeyPair} {dec : Decoder} {enc : Encoder} {mine : Bytes} :
      Joint e (.ekSentCt1Received e a kp mine dec) (.ct2Sampled e a' enc)
  /-- The header's sender is done, and its peer has not heard. -/
  | turned {e' : UInt64} (next : e'.toNat = e.toNat + 1) {a a' : Auth K} {dec : Decoder}
      {enc : Encoder} : Joint e (.noHeaderReceived e' a dec) (.ct2Sampled e a' enc)

theorem place_le (st : State K) : st.place ≤ 4 := by cases st <;> simp [State.place]

/-- A live state needs its peer to be done with the epoch before, and the
header's sender needs it to have turned. -/
theorem needs_ge (alive : st ≠ .failed) :
    5 * st.epoch.toNat - 1 ≤ st.needs ∧
      (st.sendsHeader = some true → 5 * st.epoch.toNat ≤ st.needs) := by
  cases st <;> simp only [State.needs, State.epoch, State.sendsHeader] <;>
    first | exact absurd rfl alive | (constructor <;> first | omega | (intro; omega) | simp)

theorem role_of_sends {x : Bool} (role : st.isInitiator = some x) :
    (st.sendsHeader = some true ∧ head st.epoch = x) ∨
      (st.sendsHeader = some false ∧ head st.epoch = !x) := by
  cases st <;> simp only [State.isInitiator, Braid.isInitiator, State.sendsHeader, State.epoch,
    reduceCtorEq, Option.some.injEq, if_true, Bool.false_eq_true, if_false] at role ⊢
  all_goals simp only [true_and, false_and, or_false, false_or, head]
  all_goals first | exact role | (rw [← role, Bool.not_not])

/-- **A header's sender and its peer.** -/
theorem joint_of_header {x : Bool} (role : st.isInitiator = some x)
    (peer : st'.isInitiator = some !x) (heads : st.sendsHeader = some true)
    (needs : st.needs ≤ st'.stage) (needs' : st'.needs ≤ st.stage) :
    head st.epoch = x ∧ Joint st.epoch st st' := by
  have alive : st ≠ .failed := by rintro rfl; cases role
  have alive' : st' ≠ .failed := by rintro rfl; cases peer
  have own : head st.epoch = x := by
    obtain ⟨-, own⟩ | ⟨no, -⟩ := role_of_sends role
    · exact own
    · rw [heads] at no
      cases no
  refine ⟨own, ?_⟩
  have least := (needs_ge alive).2 heads
  have least' := (needs_ge alive').1
  have place := place_le st
  have place' := place_le st'
  have stage : st.stage = 5 * st.epoch.toNat + st.place := rfl
  have stage' : st'.stage = 5 * st'.epoch.toNat + st'.place := rfl
  -- The peer is in this epoch: it cannot be the header's sender of the next.
  have epochs : st'.epoch = st.epoch := by
    rw [← UInt64.toNat_inj]
    by_contra other
    have next : st'.epoch.toNat = st.epoch.toNat + 1 := by omega
    have turned : head st'.epoch = !head st.epoch := odd_next next
    obtain ⟨yes, -⟩ | ⟨-, theirs⟩ := role_of_sends peer
    · have more := (needs_ge alive').2 yes
      omega
    · rw [turned, own, Bool.not_not] at theirs
      cases x <;> cases theirs
  have follows : st'.sendsHeader = some false := by
    obtain ⟨-, theirs⟩ | ⟨no, -⟩ := role_of_sends peer
    · rw [epochs, own] at theirs
      cases x <;> cases theirs
    · exact no
  cases st <;> simp only [State.sendsHeader, Option.some.injEq, reduceCtorEq, Bool.false_eq_true]
    at heads <;> cases st' <;> simp only [State.sendsHeader, Option.some.injEq, reduceCtorEq,
      Bool.true_eq_false] at follows <;> simp only [State.epoch] at epochs ⊢ <;> subst epochs <;>
    simp only [State.stage, State.place, State.needs, State.epoch] at needs needs' <;>
    first | omega | constructor

/-- **Two live ends are in a joint state.** -/
theorem joint_of_needs {x : Bool} (role : st.isInitiator = some x)
    (peer : st'.isInitiator = some !x) (needs : st.needs ≤ st'.stage)
    (needs' : st'.needs ≤ st.stage) :
    ∃ e, (head e = x ∧ Joint e st st') ∨ (head e = !x ∧ Joint e st' st) := by
  have alive : st ≠ .failed := by rintro rfl; cases role
  have alive' : st' ≠ .failed := by rintro rfl; cases peer
  obtain ⟨heads, -⟩ | ⟨follows, own⟩ := role_of_sends role
  · exact ⟨_, .inl (joint_of_header role peer heads needs needs')⟩
  obtain ⟨heads', -⟩ | ⟨follows', theirs⟩ := role_of_sends peer
  · have joint := joint_of_header peer (by rwa [Bool.not_not]) heads' needs' needs
    exact ⟨_, .inr joint⟩
  -- Neither sends the header: one has turned, the other not yet.
  have least := (needs_ge alive).1
  have least' := (needs_ge alive').1
  have place := place_le st
  have place' := place_le st'
  have stage : st.stage = 5 * st.epoch.toNat + st.place := rfl
  have stage' : st'.stage = 5 * st'.epoch.toNat + st'.place := rfl
  have different : st.epoch.toNat ≠ st'.epoch.toNat := by
    intro same
    rw [UInt64.toNat_inj.1 same, theirs, Bool.not_not] at own
    cases x <;> cases own
  rcases Nat.lt_or_gt_of_ne different with before | after
  · have next : st'.epoch.toNat = st.epoch.toNat + 1 := by omega
    refine ⟨st.epoch, .inr ⟨own, ?_⟩⟩
    cases st <;> simp only [State.sendsHeader, reduceCtorEq, Option.some.injEq, Bool.true_eq_false]
      at follows <;> cases st' <;> simp only [State.sendsHeader, reduceCtorEq, Option.some.injEq,
        Bool.true_eq_false] at follows' <;>
      simp only [State.stage, State.place, State.needs, State.epoch] at needs needs' next ⊢ <;>
      first | omega | exact .turned next
  · have next : st.epoch.toNat = st'.epoch.toNat + 1 := by omega
    refine ⟨st'.epoch, .inl ⟨by rw [theirs, Bool.not_not], ?_⟩⟩
    cases st <;> simp only [State.sendsHeader, reduceCtorEq, Option.some.injEq, Bool.true_eq_false]
      at follows <;> cases st' <;> simp only [State.sendsHeader, reduceCtorEq, Option.some.injEq,
        Bool.true_eq_false] at follows' <;>
      simp only [State.stage, State.place, State.needs, State.epoch] at needs needs' next ⊢ <;>
      first | omega | exact .turned next

/-! ## Room on the streams -/

/-- The codewords a stream can still issue. -/
def left (enc : Encoder) : Nat := maxCodewords - enc.position

/-- **Every stream still has what its receiver lacks**, the header's sender
first; where a stream has not begun, it has. -/
def Room : State K → State K → Prop
  | .keysSampled _ _ _ enc, .noHeaderReceived _ _ dec => dec.needed ≤ dec.held.length + left enc
  | .keysSampled .., .ct1Sampled _ _ _ _ _ enc _ => chunkCount ct1Len ≤ left enc
  | .headerSent _ _ _ ct1Dec ekEnc, .ct1Sampled _ _ _ _ _ enc ekDec =>
      ct1Dec.needed ≤ ct1Dec.held.length + left enc ∧
        ekDec.needed ≤ ekDec.held.length + left ekEnc
  | .headerSent _ _ _ ct1Dec ekEnc, .ekReceivedCt1Sampled _ _ _ _ _ enc =>
      ct1Dec.needed ≤ ct1Dec.held.length + left enc ∧ 0 < left ekEnc
  | .ct1Received _ _ _ _ ekEnc, .ct1Sampled _ _ _ _ _ _ ekDec =>
      ekDec.needed ≤ ekDec.held.length + left ekEnc
  -- The acknowledgement rides on a codeword.
  | .ct1Received _ _ _ _ ekEnc, .ekReceivedCt1Sampled .. => 0 < left ekEnc
  | .ct1Received _ _ _ _ ekEnc, .ct1Acknowledged _ _ _ _ _ ekDec =>
      ekDec.needed ≤ ekDec.held.length + left ekEnc
  | .ct1Received .., .ct2Sampled _ _ enc => chunkCount (ct2Len + macLen) ≤ left enc
  | .ekSentCt1Received _ _ _ _ dec, .ct2Sampled _ _ enc => dec.needed ≤ dec.held.length + left enc
  | _, _ => True

/-- How many messages an end still waits for in epoch `e`. -/
def State.lacks (e : UInt64) : State K → Nat
  | keysUnsampled .. => 51
  | keysSampled .. => 50
  | headerSent _ _ _ dec _ => dec.needed - dec.held.length + 6
  | ct1Received .. => 6
  | ekSentCt1Received _ _ _ _ dec => dec.needed - dec.held.length
  | noHeaderReceived e' _ dec => if e' = e then dec.needed - dec.held.length + 50 else 0
  | headerReceived .. => 50
  | ct1Sampled _ _ _ _ _ _ dec => dec.needed - dec.held.length + 1
  | ekReceivedCt1Sampled .. => 1
  | ct1Acknowledged _ _ _ _ _ dec => dec.needed - dec.held.length
  | ct2Sampled .. | failed => 0

/-! ## One message relayed -/

/-- What a relayed message leaves of its sender and its receiver. -/
def pass (kdf : Kdf K) (ikem : IncKem K) (rng : Rng) (st st' : State K) : State K × State K :=
  ((stepSend kdf ikem rng st).2.2.1, (stepReceive kdf ikem (stepSend kdf ikem rng st).1 st').2)

theorem relay_states (s : Pair (Braid K) Msg) (x : Bool) (rng : Rng) :
    ((relay (endOf kdf ikem) s (x, rng)).1.state x).state =
        (pass kdf ikem rng (s.state x).state (s.state !x).state).1 ∧
      ((relay (endOf kdf ikem) s (x, rng)).1.state !x).state =
        (pass kdf ikem rng (s.state x).state (s.state !x).state).2 := by
  obtain ⟨sender, receiver⟩ := Network.relay_eq (endOf kdf ikem) s x rng
  constructor
  · rw [sender]
    rfl
  · rw [receiver]
    show (((s.state !x).receive kdf ikem _).2).2.state = _
    rw [receive_snd]
    rfl

theorem payload_withChunk {e : UInt64} {ty : MsgType} {types : List MsgType} (among : ty ∈ types)
    (c : Chunk) : (Msg.withChunk e ty (some c)).payload e types = some c := by
  rw [Msg.payload, if_pos ⟨rfl, among⟩]
  rfl

/-- A decoder takes a codeword past all it holds. -/
theorem addChunk_fresh {dec : Decoder} {c : Chunk} (short : dec.held.length < dec.needed)
    (fresh : ∀ d ∈ dec.held, d.index.toNat < c.index.toNat) :
    (dec.addChunk c).1.held.length = dec.held.length + 1 := by
  obtain ⟨-, full | ⟨d, held, same⟩⟩ | ⟨taken, -, -⟩ := Decoder.addChunk_cases dec c
  · omega
  · have before := fresh d held
    rw [same] at before
    omega
  · rw [taken]
    simp

namespace Ledger

variable {L : Ledger ikem}

theorem Agrees.streams {v : Value} {enc : Encoder} (agrees : L.Agrees kdf secret st)
    (live : st.streaming = some (v, enc)) : L.Streams kdf secret st.epoch v enc := by
  cases st <;> simp only [State.streaming, Option.some.injEq, Prod.mk.injEq, reduceCtorEq] at live <;>
    obtain ⟨rfl, rfl⟩ := live
  · exact agrees.2.2
  · exact agrees.2.2.2
  · exact agrees.2.2.2
  · exact agrees.2.2.2.1
  · exact agrees.2.2.2
  · exact agrees.2

theorem Gathers.needed {e : UInt64} {v : Value} {dec : Decoder}
    (gathers : L.Gathers kdf secret e v dec) : dec.needed = chunkCount v.len := by
  have inv := gathers.invariant
  simp only [Decoder.invariant, Bool.and_eq_true, decide_eq_true_eq] at inv
  rw [inv.1.1.1, gathers.size]

end Ledger

/-- The first codeword of a stream, and all it leaves. -/
theorem nextChunk_new (m : Bytes) :
    ∃ c, (Encoder.new m).nextChunk.1 = some c ∧ left (Encoder.new m).nextChunk.2 = 65535 := by
  refine ⟨_, rfl, ?_⟩
  rw [Encoder.new_at, Encoder.nextChunk_at, left, Encoder.position_at]
  rfl

theorem held_addChunk (dec : Decoder) (c : Chunk) :
    dec.held.length ≤ (dec.addChunk c).1.held.length := by
  obtain ⟨same, -⟩ | ⟨taken, -, -⟩ := Decoder.addChunk_cases dec c
  · rw [same]
  · rw [taken]
    simp

section Pass

attribute [local simp] pass Room State.lacks stepSend stepReceive

variable {x : Bool} {L : Ledger ikem} {past past' : List (Event K)} {b : Braid K} {e : UInt64}

/-- **The next codeword is new to its receiver**, which has seen only indices the
stream has been at. -/
theorem Holds.relays (mine : Holds kdf secret x L past b) {v : Value} {enc : Encoder} {dec : Decoder}
    (live : b.state.streaming = some (v, enc)) (some_ : 0 < left enc)
    (gathers : L.Gathers kdf secret b.state.epoch v dec) :
    ∃ c, enc.nextChunk.1 = some c ∧ left enc.nextChunk.2 + 1 = left enc ∧
      (dec.addChunk c).1.held.length = dec.held.length + 1 := by
  obtain ⟨m, n, known, rfl⟩ := mine.agrees.streams live
  unfold left at some_
  rw [Encoder.position_at] at some_
  have inside : n < maxCodewords := by omega
  have output : Encoder.output (Encoder.new m).chunks n = some ⟨UInt16.ofNat n,
      Encoder.codeword (Encoder.new m).chunks (UInt16.ofNat n)⟩ := by
    rw [Encoder.output, if_pos inside]
  obtain ⟨-, index, -⟩ := Encoder.output_word output
  refine ⟨_, by rw [Encoder.nextChunk_at]; exact output, ?_, ?_⟩
  · unfold left
    rw [Encoder.nextChunk_at, Encoder.position_at, Encoder.position_at]
    omega
  · refine addChunk_fresh gathers.short fun d held => ?_
    have before := (gathers.words d held).2
    rw [mine.issued _ _ (State.streaming_sender mine.role live), State.issued_live live,
      Encoder.position_at] at before
    omega

/-- One epoch key closer: still a joint state with room, and one message less to
wait for. -/
structure Advances (e : UInt64) (st st' : State K) (next : State K × State K) : Prop where
  joint : Joint e next.1 next.2
  room : Room next.1 next.2
  less : next.1.lacks e + next.2.lacks e < st.lacks e + st'.lacks e

variable {a a' : Auth K} {kp : IncrementalKeyPair} {enc hdrEnc ekEnc : Encoder}
  {dec ct1Dec ekDec : Decoder} {mine header ct1 ekVector : Bytes} {encaps : EncapsState} {rng : Rng}

theorem pass_unsampled (honest : ikem.Honest)
    (takes : Holds kdf secret (!x) L past' ⟨.noHeaderReceived e a' dec⟩)
    (alive : (pass kdf ikem rng (.keysUnsampled e a) (.noHeaderReceived e a' dec)).2 ≠ .failed) :
    Advances e (.keysUnsampled e a) (.noHeaderReceived e a' dec)
      (pass kdf ikem rng (.keysUnsampled e a) (.noHeaderReceived e a' dec)) := by
  obtain ⟨-, gathers⟩ := takes.agrees
  have sized : dec.needed = 3 := gathers.needed
  obtain ⟨kp, rng', drawn, -⟩ := generate_honest honest rng
  obtain ⟨c, issued, rest⟩ := nextChunk_new (kp.header ikem ++ a.macHdr kdf e (kp.header ikem))
  have more := held_addChunk dec c
  simp only [pass, stepSend, stepReceive, drawn, issued,
    payload_withChunk (List.mem_singleton_self _)] at alive ⊢
  cases yields : (dec.addChunk c).1.message with
  | none =>
      simp only
      refine ⟨.sampled, ?_, ?_⟩
      · simp only [Room, Decoder.addChunk_needed, rest, sized]
        omega
      · simp only [State.lacks, if_true, Decoder.addChunk_needed]
        omega
  | some framed =>
      simp only [yields] at alive ⊢
      rw [(acceptHeader_alive alive).2]
      refine ⟨.accepted, trivial, ?_⟩
      simp only [State.lacks, if_true]
      omega

theorem pass_sampled
    (sends : Holds kdf secret x L past ⟨.keysSampled e a kp enc⟩)
    (takes : Holds kdf secret (!x) L past' ⟨.noHeaderReceived e a' dec⟩)
    (room : Room (.keysSampled e a kp enc) (.noHeaderReceived e a' dec))
    (alive : (pass kdf ikem rng (.keysSampled e a kp enc) (.noHeaderReceived e a' dec)).2 ≠ .failed) :
    Advances e (.keysSampled e a kp enc) (.noHeaderReceived e a' dec)
      (pass kdf ikem rng (.keysSampled e a kp enc) (.noHeaderReceived e a' dec)) := by
  obtain ⟨-, gathers⟩ := takes.agrees
  have short := gathers.short
  simp only [Room] at room
  obtain ⟨c, issued, fewer, more⟩ := sends.relays rfl (by omega) gathers
  simp only [pass, stepSend, stepReceive, issued, payload_withChunk (List.mem_singleton_self _)]
    at alive ⊢
  cases yields : (dec.addChunk c).1.message with
  | none =>
      simp only
      refine ⟨.sampled, ?_, ?_⟩
      · simp only [Room, Decoder.addChunk_needed]
        omega
      · simp only [State.lacks, if_true, Decoder.addChunk_needed]
        omega
  | some framed =>
      simp only [yields] at alive ⊢
      rw [(acceptHeader_alive alive).2]
      refine ⟨.accepted, trivial, ?_⟩
      simp only [State.lacks, if_true]
      omega

theorem pass_drawn
    (sends : Holds kdf secret (!x) L past' ⟨.ct1Sampled e a' header encaps ct1 enc ekDec⟩)
    (room : Room (.keysSampled e a kp hdrEnc) (.ct1Sampled e a' header encaps ct1 enc ekDec)) :
    Advances e (.keysSampled e a kp hdrEnc) (.ct1Sampled e a' header encaps ct1 enc ekDec)
      (pass kdf ikem rng (.ct1Sampled e a' header encaps ct1 enc ekDec)
        (.keysSampled e a kp hdrEnc)).swap := by
  obtain ⟨-, -, -, -, gathers⟩ := sends.agrees
  have sized : ekDec.needed = 48 := gathers.needed
  have many : chunkCount ct1Len = 44 := by decide
  simp only [Room] at room
  obtain ⟨c, issued, fewer, more⟩ := sends.relays rfl (by omega) (.new .ct1 e)
  simp only [pass, stepSend, stepReceive, issued, payload_withChunk (List.mem_singleton_self _),
    Prod.swap]
  refine ⟨.proved, ?_, ?_⟩
  · have held : (Decoder.new ct1Len).held.length = 0 := rfl
    have needed : (Decoder.new ct1Len).needed = 44 := many
    have all : left (Encoder.new (kp.ekVector ikem)) = maxCodewords := rfl
    have limit : maxCodewords = 65536 := rfl
    simp only [Room, Decoder.addChunk_needed, needed, all, limit]
    change ((Decoder.new ct1Len).addChunk c).1.held.length = _ at more
    omega
  · have held : (Decoder.new ct1Len).held.length = 0 := rfl
    have needed : (Decoder.new ct1Len).needed = 44 := many
    change ((Decoder.new ct1Len).addChunk c).1.held.length = _ at more
    simp only [State.lacks, Decoder.addChunk_needed, needed]
    omega

theorem pass_accepted (honest : ikem.Honest)
    (sends : Holds kdf secret (!x) L past' ⟨.headerReceived e a' header ekDec⟩) :
    Advances e (.keysSampled e a kp hdrEnc) (.headerReceived e a' header ekDec)
      (pass kdf ikem rng (.headerReceived e a' header ekDec) (.keysSampled e a kp hdrEnc)).swap := by
  obtain ⟨-, has, gathers⟩ := sends.agrees
  have sized : ekDec.needed = 48 := gathers.needed
  obtain ⟨encaps, ct1, raw, rng', drawn, -⟩ := encapsulate1_honest honest has rng
  obtain ⟨c, issued, rest⟩ := nextChunk_new ct1
  have needed : (Decoder.new ct1Len).needed = 44 := by decide
  simp only [pass, stepSend, stepReceive, drawn, issued,
    payload_withChunk (List.mem_singleton_self _), Prod.swap]
  refine ⟨.proved, ?_, ?_⟩
  · have all : left (Encoder.new (kp.ekVector ikem)) = 65536 := rfl
    simp only [Room, Decoder.addChunk_needed, needed, rest, all]
    omega
  · simp only [State.lacks, Decoder.addChunk_needed, needed, sized]
    omega

/-- `ct1` goes on arriving, whether or not the vector has. -/
theorem pass_proved
    (takes : Holds kdf secret x L past ⟨.headerSent e a kp ct1Dec ekEnc⟩)
    (sends : Holds kdf secret (!x) L past' ⟨.ct1Sampled e a' header encaps ct1 enc ekDec⟩)
    (room : Room (.headerSent e a kp ct1Dec ekEnc) (.ct1Sampled e a' header encaps ct1 enc ekDec)) :
    Advances e (.headerSent e a kp ct1Dec ekEnc) (.ct1Sampled e a' header encaps ct1 enc ekDec)
      (pass kdf ikem rng (.ct1Sampled e a' header encaps ct1 enc ekDec)
        (.headerSent e a kp ct1Dec ekEnc)).swap := by
  obtain ⟨-, -, gathers, -⟩ := takes.agrees
  have short := gathers.short
  simp only [Room] at room
  obtain ⟨c, issued, fewer, more⟩ := sends.relays rfl (by omega) gathers
  simp only [pass, stepSend, stepReceive, issued, payload_withChunk (List.mem_singleton_self _),
    Prod.swap]
  cases yields : (ct1Dec.addChunk c).1.message with
  | none =>
      simp only
      refine ⟨.proved, ?_, ?_⟩
      · simp only [Room, Decoder.addChunk_needed]
        omega
      · simp only [State.lacks, Decoder.addChunk_needed]
        omega
  | some whole =>
      simp only
      refine ⟨.answered, ?_, ?_⟩
      · simp only [Room]
        omega
      · simp only [State.lacks]
        omega

theorem pass_gathered
    (takes : Holds kdf secret x L past ⟨.headerSent e a kp ct1Dec ekEnc⟩)
    (sends : Holds kdf secret (!x) L past' ⟨.ekReceivedCt1Sampled e a' encaps ct1 ekVector enc⟩)
    (room : Room (.headerSent e a kp ct1Dec ekEnc)
      (.ekReceivedCt1Sampled e a' encaps ct1 ekVector enc)) :
    Advances e (.headerSent e a kp ct1Dec ekEnc) (.ekReceivedCt1Sampled e a' encaps ct1 ekVector enc)
      (pass kdf ikem rng (.ekReceivedCt1Sampled e a' encaps ct1 ekVector enc)
        (.headerSent e a kp ct1Dec ekEnc)).swap := by
  obtain ⟨-, -, gathers, -⟩ := takes.agrees
  have short := gathers.short
  simp only [Room] at room
  obtain ⟨c, issued, fewer, more⟩ := sends.relays rfl (by omega) gathers
  simp only [pass, stepSend, stepReceive, issued, payload_withChunk (List.mem_singleton_self _),
    Prod.swap]
  cases yields : (ct1Dec.addChunk c).1.message with
  | none =>
      simp only
      refine ⟨.gathered, ?_, ?_⟩
      · simp only [Room, Decoder.addChunk_needed]
        omega
      · simp only [State.lacks, Decoder.addChunk_needed]
        omega
  | some whole =>
      simp only
      refine ⟨.both, ?_, ?_⟩
      · simp only [Room]
        omega
      · simp only [State.lacks]
        omega

/-- The vector goes on arriving, the acknowledgement on every codeword of it. -/
theorem pass_answered
    (sends : Holds kdf secret x L past ⟨.ct1Received e a kp mine ekEnc⟩)
    (takes : Holds kdf secret (!x) L past' ⟨.ct1Sampled e a' header encaps ct1 enc ekDec⟩)
    (room : Room (.ct1Received e a kp mine ekEnc) (.ct1Sampled e a' header encaps ct1 enc ekDec))
    (alive : (pass kdf ikem rng (.ct1Received e a kp mine ekEnc)
      (.ct1Sampled e a' header encaps ct1 enc ekDec)).2 ≠ .failed) :
    Advances e (.ct1Received e a kp mine ekEnc) (.ct1Sampled e a' header encaps ct1 enc ekDec)
      (pass kdf ikem rng (.ct1Received e a kp mine ekEnc)
        (.ct1Sampled e a' header encaps ct1 enc ekDec)) := by
  obtain ⟨-, -, -, -, gathers⟩ := takes.agrees
  have short := gathers.short
  simp only [Room] at room
  obtain ⟨c, issued, fewer, more⟩ := sends.relays rfl (by omega) gathers
  have arrives : (Msg.withChunk e .ekCt1Ack (some c)).payload e [.ek, .ekCt1Ack] = some c :=
    payload_withChunk (by decide) c
  have acked : ((Msg.withChunk e .ekCt1Ack (some c)).ty == MsgType.ekCt1Ack) = true := rfl
  simp only [pass, stepSend, stepReceive, issued, arrives, acked, if_true] at alive ⊢
  cases yields : (ekDec.addChunk c).1.message with
  | none =>
      simp only
      refine ⟨.acknowledged, ?_, ?_⟩
      · simp only [Room, Decoder.addChunk_needed]
        omega
      · simp only [State.lacks, Decoder.addChunk_needed]
        omega
  | some whole =>
      simp only [yields] at alive ⊢
      split at alive
      · exact absurd rfl alive
      · rename_i valid
        rw [if_neg valid]
        obtain ⟨ct2, -, same⟩ := finishEncaps_alive alive
        rw [same]
        refine ⟨.finishing, ?_, ?_⟩
        · show chunkCount (ct2Len + macLen) ≤ maxCodewords
          decide
        · simp only [State.lacks]
          omega

theorem pass_both
    (sends : Holds kdf secret x L past ⟨.ct1Received e a kp mine ekEnc⟩)
    (room : Room (.ct1Received e a kp mine ekEnc)
      (.ekReceivedCt1Sampled e a' encaps ct1 ekVector enc))
    (alive : (pass kdf ikem rng (.ct1Received e a kp mine ekEnc)
      (.ekReceivedCt1Sampled e a' encaps ct1 ekVector enc)).2 ≠ .failed) :
    Advances e (.ct1Received e a kp mine ekEnc) (.ekReceivedCt1Sampled e a' encaps ct1 ekVector enc)
      (pass kdf ikem rng (.ct1Received e a kp mine ekEnc)
        (.ekReceivedCt1Sampled e a' encaps ct1 ekVector enc)) := by
  simp only [Room] at room
  obtain ⟨c, issued, -, -⟩ := sends.relays rfl room (.new .ekVector e)
  have arrives : (Msg.withChunk e .ekCt1Ack (some c)).epoch = e ∧
      (Msg.withChunk e .ekCt1Ack (some c)).ty = MsgType.ekCt1Ack := ⟨rfl, rfl⟩
  simp only [pass, stepSend, stepReceive, issued, if_pos arrives] at alive ⊢
  obtain ⟨ct2, -, same⟩ := finishEncaps_alive alive
  rw [same]
  refine ⟨.finishing, ?_, ?_⟩
  · show chunkCount (ct2Len + macLen) ≤ maxCodewords
    decide
  · simp only [State.lacks]
    omega

theorem pass_acknowledged
    (sends : Holds kdf secret x L past ⟨.ct1Received e a kp mine ekEnc⟩)
    (takes : Holds kdf secret (!x) L past' ⟨.ct1Acknowledged e a' header encaps ct1 ekDec⟩)
    (room : Room (.ct1Received e a kp mine ekEnc) (.ct1Acknowledged e a' header encaps ct1 ekDec))
    (alive : (pass kdf ikem rng (.ct1Received e a kp mine ekEnc)
      (.ct1Acknowledged e a' header encaps ct1 ekDec)).2 ≠ .failed) :
    Advances e (.ct1Received e a kp mine ekEnc) (.ct1Acknowledged e a' header encaps ct1 ekDec)
      (pass kdf ikem rng (.ct1Received e a kp mine ekEnc)
        (.ct1Acknowledged e a' header encaps ct1 ekDec)) := by
  obtain ⟨-, -, -, gathers⟩ := takes.agrees
  have short := gathers.short
  simp only [Room] at room
  obtain ⟨c, issued, fewer, more⟩ := sends.relays rfl (by omega) gathers
  simp only [pass, stepSend, stepReceive, issued, payload_withChunk (List.mem_singleton_self _)]
    at alive ⊢
  cases yields : (ekDec.addChunk c).1.message with
  | none =>
      simp only
      refine ⟨.acknowledged, ?_, ?_⟩
      · simp only [Room, Decoder.addChunk_needed]
        omega
      · simp only [State.lacks, Decoder.addChunk_needed]
        omega
  | some whole =>
      simp only [yields] at alive ⊢
      split at alive
      · exact absurd rfl alive
      · rename_i valid
        rw [if_neg valid]
        obtain ⟨ct2, -, same⟩ := finishEncaps_alive alive
        rw [same]
        refine ⟨.finishing, ?_, ?_⟩
        · show chunkCount (ct2Len + macLen) ≤ maxCodewords
          decide
        · simp only [State.lacks]
          omega

theorem pass_finishing
    (sends : Holds kdf secret (!x) L past' ⟨.ct2Sampled e a' enc⟩)
    (room : Room (.ct1Received e a kp mine ekEnc) (.ct2Sampled e a' enc)) :
    Advances e (.ct1Received e a kp mine ekEnc) (.ct2Sampled e a' enc)
      (pass kdf ikem rng (.ct2Sampled e a' enc) (.ct1Received e a kp mine ekEnc)).swap := by
  have many : chunkCount (ct2Len + macLen) = 6 := by decide
  simp only [Room] at room
  obtain ⟨c, issued, fewer, more⟩ := sends.relays rfl (by omega) (.new .ct2 e)
  have held : (Decoder.new (ct2Len + macLen)).held.length = 0 := rfl
  have needed : (Decoder.new (ct2Len + macLen)).needed = 6 := many
  change ((Decoder.new (ct2Len + macLen)).addChunk c).1.held.length = _ at more
  simp only [pass, stepSend, stepReceive, issued, payload_withChunk (List.mem_singleton_self _),
    Prod.swap]
  refine ⟨.closing, ?_, ?_⟩
  · simp only [Room, Decoder.addChunk_needed, needed]
    omega
  · simp only [State.lacks, Decoder.addChunk_needed, needed]
    omega

theorem pass_closing
    (takes : Holds kdf secret x L past ⟨.ekSentCt1Received e a kp mine dec⟩)
    (sends : Holds kdf secret (!x) L past' ⟨.ct2Sampled e a' enc⟩)
    (room : Room (.ekSentCt1Received e a kp mine dec) (.ct2Sampled e a' enc))
    (alive : (pass kdf ikem rng (.ct2Sampled e a' enc)
      (.ekSentCt1Received e a kp mine dec)).2 ≠ .failed) :
    Advances e (.ekSentCt1Received e a kp mine dec) (.ct2Sampled e a' enc)
      (pass kdf ikem rng (.ct2Sampled e a' enc) (.ekSentCt1Received e a kp mine dec)).swap := by
  obtain ⟨-, -, -, gathers⟩ := takes.agrees
  have short := gathers.short
  simp only [Room] at room
  obtain ⟨c, issued, fewer, more⟩ := sends.relays rfl (by omega) gathers
  simp only [pass, stepSend, stepReceive, issued, payload_withChunk (List.mem_singleton_self _),
    Prod.swap] at alive ⊢
  cases yields : (dec.addChunk c).1.message with
  | none =>
      simp only
      refine ⟨.closing, ?_, ?_⟩
      · simp only [Room, Decoder.addChunk_needed]
        omega
      · simp only [State.lacks, Decoder.addChunk_needed]
        omega
  | some framed =>
      simp only [yields] at alive ⊢
      obtain ⟨next, raw, climbs, -, -, same⟩ := completeEpoch_alive alive
      rw [same]
      have later : next ≠ e := by
        rintro rfl
        omega
      refine ⟨.turned climbs, trivial, ?_⟩
      simp only [State.lacks, if_neg later]
      omega

end Pass

/-! ## Relaying until the epoch is finished -/

section Finishing

variable {x : Bool} {L : Ledger ikem} {log : List (Bool × Event K)} {s : Pair (Braid K) Msg}
  {e : UInt64} {honest : ikem.Honest} {sized : kdf.Sized}

/-- **Whichever joint state, some end's message brings the epoch closer**, until
the header's sender has turned. -/
theorem pass_advances {past past' : List (Event K)} (honest : ikem.Honest)
    (mine : Holds kdf secret x L past ⟨st⟩) (theirs : Holds kdf secret (!x) L past' ⟨st'⟩)
    (joint : Joint e st st') (room : Room st st') (rng : Rng) :
    (∃ e' a dec a' enc, e'.toNat = e.toNat + 1 ∧ st = .noHeaderReceived e' a dec ∧
      st' = .ct2Sampled e a' enc) ∨
    (st.epoch = e ∧ st'.epoch = e) ∧
    (((pass kdf ikem rng st st').2 ≠ .failed → Advances e st st' (pass kdf ikem rng st st')) ∨
      ((pass kdf ikem rng st' st).2 ≠ .failed →
        Advances e st st' (pass kdf ikem rng st' st).swap)) := by
  cases joint with
  | turned next => exact .inl ⟨_, _, _, _, _, next, rfl, rfl⟩
  | unsampled => exact .inr ⟨⟨rfl, rfl⟩, .inl fun alive => pass_unsampled honest theirs alive⟩
  | sampled => exact .inr ⟨⟨rfl, rfl⟩, .inl fun alive => pass_sampled mine theirs room alive⟩
  | accepted => exact .inr ⟨⟨rfl, rfl⟩, .inr fun _ => pass_accepted honest theirs⟩
  | drawn => exact .inr ⟨⟨rfl, rfl⟩, .inr fun _ => pass_drawn theirs room⟩
  | proved => exact .inr ⟨⟨rfl, rfl⟩, .inr fun _ => pass_proved mine theirs room⟩
  | gathered => exact .inr ⟨⟨rfl, rfl⟩, .inr fun _ => pass_gathered mine theirs room⟩
  | answered => exact .inr ⟨⟨rfl, rfl⟩, .inl fun alive => pass_answered mine theirs room alive⟩
  | both => exact .inr ⟨⟨rfl, rfl⟩, .inl fun alive => pass_both mine room alive⟩
  | acknowledged =>
      exact .inr ⟨⟨rfl, rfl⟩, .inl fun alive => pass_acknowledged mine theirs room alive⟩
  | finishing => exact .inr ⟨⟨rfl, rfl⟩, .inr fun _ => pass_finishing theirs room⟩
  | closing => exact .inr ⟨⟨rfl, rfl⟩, .inr fun alive => pass_closing mine theirs room alive⟩

/-- A message relayed keeps what both ends know. -/
theorem relay_under (under : (discipline kdf secret honest sized).Under L log s)
    (below : ∀ z, (s.state z).epoch.toNat + 2 < 2 ^ 64) (z : Bool) (rng : Rng) :
    ∃ L', (discipline kdf secret honest sized).Under L'
      (log ++ (relay (endOf kdf ikem) s (z, rng)).2) (relay (endOf kdf ikem) s (z, rng)).1 := by
  obtain ⟨L₁, sent⟩ := under.call below (.send z rng)
  have kept : ∀ y, ((Network.call (endOf kdf ikem) s (.send z rng)).1.state y).epoch.toNat + 2 <
      2 ^ 64 := by
    intro y
    by_cases same : y = z
    · subst same
      have alive := (sent.knows y).agrees.alive
      have after : (Network.call (endOf kdf ikem) s (.send y rng)).1.state y =
          ⟨(stepSend kdf ikem rng (s.state y).state).2.2.1⟩ := by
        simp only [Network.call, Function.update_self]
        rfl
      rw [after] at alive ⊢
      have one := (under.knows y).along.positive (under.knows y).agrees.alive
      show (stepSend kdf ikem rng (s.state y).state).2.2.1.epoch.toNat + 2 < 2 ^ 64
      rw [(stepSend_emitted one rng alive).1]
      exact below y
    · simp only [Network.call, Function.update_of_ne same]
      exact below y
  obtain ⟨L₂, taken⟩ := sent.call kept (.deliver (!z) (s.sent z).length)
  refine ⟨L₂, ?_⟩
  simp only [relay, Machine.run_cons, Machine.run_nil, List.append_nil, ← List.append_assoc]
  exact taken

/-- The schedule takes both ends past the epoch, and both have emitted its key. -/
def Finishes (kdf : Kdf K) (ikem : IncKem K) (e : UInt64) (log : List (Bool × Event K))
    (s : Pair (Braid K) Msg) (schedule : List (Bool × Rng)) : Prop :=
  ∀ z, e.toNat < (((relay (endOf kdf ikem)).run s schedule).1.state z).epoch.toNat ∧
    ∃ o, (z, Event.emitted o) ∈ log ++ ((relay (endOf kdf ikem)).run s schedule).2 ∧
      o.keyEpoch = e

theorem Finishes.cons {c : Bool × Rng} {schedule : List (Bool × Rng)}
    (later : Finishes kdf ikem e (log ++ (relay (endOf kdf ikem) s c).2)
      (relay (endOf kdf ikem) s c).1 schedule) : Finishes kdf ikem e log s (c :: schedule) := by
  intro z
  obtain ⟨past, o, emitted, number⟩ := later z
  rw [List.append_assoc] at emitted
  exact ⟨past, o, emitted, number⟩

/-- Once the header's sender has turned, its next message turns its peer. -/
theorem turned_finishes (under : (discipline kdf secret honest sized).Under L log s)
    (below : e.toNat + 2 < 2 ^ 64) {e' : UInt64} (next : e'.toNat = e.toNat + 1)
    {a a' : Auth K} {dec : Decoder} {enc : Encoder}
    (waits : (s.state x).state = .noHeaderReceived e' a dec)
    (streams : (s.state !x).state = .ct2Sampled e a' enc) :
    Finishes kdf ikem e log s [(x, fun _ => 0)] := by
  obtain ⟨sender, receiver⟩ := @relay_states K kdf ikem s x fun _ => 0
  have one : 1 ≤ e.toNat := by
    have positive := (under.knows !x).positive
    rwa [streams] at positive
  have climbs : e.checkedAdd 1 = some e' := by
    rw [UInt64.checkedAdd_eq_some, UInt64.toNat_one]
    exact next
  have open_ : e' ≠ UInt64.maxValue := by
    rintro rfl
    rw [UInt64.toNat_maxValue] at next
    omega
  have there : ∀ z, e.toNat ≤ (s.state z).state.emitted := by
    intro z
    by_cases same : z = x
    · subst same
      rw [waits]
      show e.toNat ≤ e'.toNat - 1
      omega
    · obtain rfl := Network.eq_not_of_ne same
      rw [streams]
      exact le_rfl
  intro z
  constructor
  · show e.toNat < ((relay (endOf kdf ikem) s (x, _)).1.state z).state.epoch.toNat
    by_cases same : z = x
    · subst same
      rw [sender, waits]
      show e.toNat < e'.toNat
      omega
    · obtain rfl := Network.eq_not_of_ne same
      rw [receiver, streams, waits]
      simp only [pass, stepSend, stepReceive, climbs, if_neg open_, Msg.empty, if_true, State.epoch]
      omega
  · obtain ⟨o, emitted, number⟩ := (under.knows z).emits one (there z)
    exact ⟨o, List.mem_append_left _ emitted, UInt64.toNat_inj.1 number⟩

/-- **With room on every stream, some schedule of sends, each handed over at once,
finishes the epoch**, with no more of them than both ends wait for and one. -/
theorem room_finishes (under : (discipline kdf secret honest sized).Under L log s)
    (below : e.toNat + 2 < 2 ^ 64) (joint : Joint e (s.state x).state (s.state !x).state)
    (room : Room (s.state x).state (s.state !x).state) :
    ∃ schedule, Finishes kdf ikem e log s schedule ∧
      schedule.length ≤ (s.state x).state.lacks e + (s.state !x).state.lacks e + 1 := by
  generalize lacks : (s.state x).state.lacks e + (s.state !x).state.lacks e = n
  induction n using Nat.strong_induction_on generalizing L log s with
  | _ n ih =>
      have relayed : ∀ z, (s.state x).state.epoch = e ∧ (s.state !x).state.epoch = e →
          ∃ L', (discipline kdf secret honest sized).Under L'
            (log ++ (relay (endOf kdf ikem) s (z, fun _ => 0)).2)
            (relay (endOf kdf ikem) s (z, fun _ => 0)).1 := by
        rintro z ⟨mine, theirs⟩
        refine relay_under under (fun y => ?_) z _
        show (s.state y).state.epoch.toNat + 2 < 2 ^ 64
        by_cases same : y = x
        · rw [same, mine]
          exact below
        · rw [Network.eq_not_of_ne same, theirs]
          exact below
      obtain ⟨e', a, dec, a', enc, next, waits, streams⟩ | ⟨epochs, mine | theirs⟩ :=
        pass_advances honest (under.knows x) (under.knows !x) joint room (fun _ => 0)
      · exact ⟨_, turned_finishes under below next waits streams, Nat.succ_le_succ (Nat.zero_le n)⟩
      · obtain ⟨L', after⟩ := relayed x epochs
        obtain ⟨sender, receiver⟩ := @relay_states K kdf ikem s x fun _ => 0
        have alive := (after.knows !x).agrees.alive
        rw [receiver] at alive
        have advances := mine alive
        have fewer := lacks ▸ advances.less
        obtain ⟨schedule, finishes, length⟩ := ih _ fewer after
          (by rw [sender, receiver]; exact advances.joint)
          (by rw [sender, receiver]; exact advances.room) (by rw [sender, receiver])
        exact ⟨_, finishes.cons, Nat.succ_le_succ (length.trans fewer)⟩
      · obtain ⟨L', after⟩ := relayed (!x) epochs
        obtain ⟨sender, receiver⟩ := @relay_states K kdf ikem s (!x) fun _ => 0
        rw [Bool.not_not] at sender receiver
        have alive := (after.knows x).agrees.alive
        rw [receiver] at alive
        have advances := theirs alive
        have fewer := lacks ▸ advances.less
        obtain ⟨schedule, finishes, length⟩ := ih _ fewer after
          (by rw [sender, receiver]; exact advances.joint)
          (by rw [sender, receiver]; exact advances.room) (by rw [sender, receiver]; rfl)
        exact ⟨_, finishes.cons, Nat.succ_le_succ (length.trans fewer)⟩

end Finishing

end Tacenta.Braid
