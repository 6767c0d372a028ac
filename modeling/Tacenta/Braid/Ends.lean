/-
# Tacenta.Braid.Ends -- one end of an honest agreement

Each end is followed on its own (`Holds`), against the ledger of what has been
drawn: a send may add a line to it (`stepSend_records`), a receive reads one
(`Takes.agrees`).  Two things tie it to its peer.  A key pair or a secret is
drawn once, as only the side whose turn it is draws it.  And no state is reached
before the peer has come to the stage it answers (`State.needs`).

`discipline` puts both ends on a network.
-/
import Tacenta.Braid.Ledger
import Tacenta.Network

set_option autoImplicit false
set_option linter.dupNamespace false

namespace Tacenta.Braid

open Tacenta.Erasure (Chunk Encoder Decoder Word)
open Tacenta.Kem
open Tacenta.Machine (ofParty)
open Ledger (Extends)

variable {K : Type} {kdf : Kdf K} {ikem : IncKem K} {secret : Bytes} {st st' : State K}

/-! ## Stages and streams never go back -/

namespace State

theorem issued_le_max (st : State K) (e : UInt64) (v : Value) :
    st.issued e v ≤ Erasure.maxCodewords := by
  unfold issued
  split
  · exact Nat.zero_le _
  · split
    · unfold position
      cases st.streaming with
      | none => exact le_rfl
      | some live =>
          simp only
          split
          · exact live.2.position_le
          · exact le_rfl
    · exact le_rfl

/-- A stream that had started, and runs on, has not gone back. -/
theorem issued_le (stage : st.stage ≤ st'.stage)
    (runs : ∀ v enc', st'.streaming = some (v, enc') → 5 * st'.epoch.toNat + v.start ≤ st.stage →
      ∃ enc, st.epoch = st'.epoch ∧ st.streaming = some (v, enc) ∧ enc.position ≤ enc'.position)
    (e : UInt64) (v : Value) : st.issued e v ≤ st'.issued e v := by
  have most := issued_le_max st e v
  by_cases before : st.stage < 5 * e.toNat + v.start
  · rw [issued, if_pos before]
    exact Nat.zero_le _
  have started : ¬ st'.stage < 5 * e.toNat + v.start := by omega
  rw [show st'.issued e v = _ by rw [issued, if_neg started]]
  by_cases here : st'.epoch = e
  · rw [if_pos here, position]
    cases live : st'.streaming with
    | none => exact most
    | some found =>
        obtain ⟨w, enc'⟩ := found
        simp only
        by_cases same : w = v
        · subst same here
          obtain ⟨enc, there, was, further⟩ := runs w enc' live (by omega)
          rw [if_pos rfl, issued, if_neg before, if_pos there, position, was]
          simp only [if_true, Option.getD_some]
          exact further
        · rw [if_neg same]
          exact most
  · rw [if_neg here]
    exact most

/-- The stream a state sends from has issued what its position says. -/
theorem issued_live {v : Value} {enc : Encoder} (live : st.streaming = some (v, enc)) :
    st.issued st.epoch v = enc.position := by
  have started : ¬ st.stage < 5 * st.epoch.toNat + v.start := by
    cases st <;> simp only [streaming, Option.some.injEq, Prod.mk.injEq, reduceCtorEq] at live <;>
      obtain ⟨rfl, -⟩ := live <;> simp [stage, epoch, place, Value.start]
  rw [issued, if_neg started, if_pos rfl, position, live]
  simp

/-- A side streams its own values. -/
theorem streaming_sender {x : Bool} (role : st.isInitiator = some x) {v : Value} {enc : Encoder}
    (live : st.streaming = some (v, enc)) : v.sender st.epoch = x := by
  cases st <;> simp only [streaming, Option.some.injEq, Prod.mk.injEq, reduceCtorEq] at live <;>
    obtain ⟨rfl, -⟩ := live <;> exact Option.some.inj role

end State

open State (issued_le)

/-- **What a move does to a side's place**: it never goes back, and neither do its
streams. -/
structure Climbs (st st' : State K) : Prop where
  stage : st.stage ≤ st'.stage
  issued : ∀ e v, st.issued e v ≤ st'.issued e v

theorem Climbs.refl (st : State K) : Climbs st st := ⟨le_rfl, fun _ _ => le_rfl⟩

/-- A move that starts a stream, or none. -/
theorem Climbs.of_start (stage : st.stage ≤ st'.stage)
    (starts : ∀ v enc, st'.streaming = some (v, enc) → st.stage < 5 * st'.epoch.toNat + v.start) :
    Climbs st st' :=
  ⟨stage, issued_le stage fun v enc live started => absurd (starts v enc live) (by omega)⟩

/-- A move that leaves the stream as it is. -/
theorem Climbs.of_same (stage : st.stage ≤ st'.stage) (epoch : st.epoch = st'.epoch)
    (same : st.streaming = st'.streaming) : Climbs st st' :=
  ⟨stage, issued_le stage fun _ enc live _ => ⟨enc, epoch, same.trans live, le_rfl⟩⟩

theorem Takes.climbs {msg : Msg} {out : Option (Output K)} (takes : Takes kdf ikem msg st out st')
    (alive : st' ≠ .failed) : Climbs st st' := by
  cases takes with
  | ignored => exact .refl _
  | ekInvalid | lateInvalid | ceiling => exact absurd rfl alive
  | headerProved =>
      apply Climbs.of_start
      · simp [State.stage, State.epoch, State.place]
      · rintro v enc live
        obtain ⟨rfl, -⟩ : Value.ekVector = v ∧ _ := by simpa [State.streaming] using live
        simp [State.stage, State.epoch, State.place, Value.start]
  | ct1Chunk | ct1Complete | ekChunk | ekComplete =>
      apply Climbs.of_same
      · simp [State.stage, State.epoch, State.place]
      · rfl
      · rfl
  | ekProved | ct2Chunk | headerChunk | ekChunkAcked | lateChunk =>
      apply Climbs.of_start
      · simp [State.stage, State.epoch, State.place]
      · rintro v enc live
        simp [State.streaming] at live
  | ct2Complete =>
      obtain ⟨next, raw, climbs, -, -, same⟩ := completeEpoch_alive alive
      rw [same]
      apply Climbs.of_start
      · simp only [State.stage, State.epoch, State.place, climbs]
        omega
      · rintro v enc live
        simp [State.streaming] at live
  | headerComplete =>
      rw [(acceptHeader_alive alive).2]
      apply Climbs.of_start
      · simp [State.stage, State.epoch, State.place]
      · rintro v enc live
        simp [State.streaming] at live
  | ekCompleteAcked | acknowledged | lateComplete =>
      obtain ⟨ct2, -, same⟩ := finishEncaps_alive alive
      rw [same]
      apply Climbs.of_start
      · simp [State.stage, State.epoch, State.place]
      · rintro v enc live
        obtain ⟨rfl, -⟩ : Value.ct2 = v ∧ _ := by simpa [State.streaming] using live
        simp [State.stage, State.epoch, State.place, Value.start]
  | swapped climbs =>
      apply Climbs.of_start
      · simp only [State.stage, State.epoch, State.place, climbs]
        omega
      · rintro v enc live
        simp [State.streaming] at live

/-- What a state needs of its peer it needed before, or the message shows. -/
theorem Takes.needs {msg : Msg} {out : Option (Output K)} (takes : Takes kdf ikem msg st out st')
    (alive : st' ≠ .failed) : st'.needs ≤ max st.needs msg.stage := by
  cases takes with
  | ignored => exact le_max_left _ _
  | ekInvalid | lateInvalid | ceiling => exact absurd rfl alive
  | headerProved arrived | ct1Complete arrived | ekProved arrived | ekChunkAcked arrived _ acked =>
      obtain ⟨⟨rfl, among⟩, -⟩ := Ledger.payload_eq_some.1 arrived
      first
        | simp only [acked, State.needs, Msg.stage, MsgType.start]; omega
        | simp only [List.mem_singleton] at among
          simp only [among, State.needs, Msg.stage, MsgType.start]; omega
  | ekComplete arrived _ _ notAcked =>
      obtain ⟨⟨rfl, among⟩, -⟩ := Ledger.payload_eq_some.1 arrived
      simp only [List.mem_cons, notAcked, List.not_mem_nil, or_false] at among
      simp only [among, State.needs, Msg.stage, MsgType.start]
      omega
  | ct1Chunk | ct2Chunk | headerChunk | ekChunk | lateChunk => exact le_max_left _ _
  | @ct2Complete epoch =>
      obtain ⟨next, raw, climbs, -, -, same⟩ := completeEpoch_alive alive
      rw [same]
      simp only [State.needs, climbs]
      omega
  | headerComplete arrived =>
      obtain ⟨⟨rfl, among⟩, -⟩ := Ledger.payload_eq_some.1 arrived
      rw [(acceptHeader_alive alive).2]
      simp only [List.mem_singleton] at among
      simp only [among, State.needs, Msg.stage, MsgType.start]
      omega
  | ekCompleteAcked arrived _ _ acked =>
      obtain ⟨⟨rfl, -⟩, -⟩ := Ledger.payload_eq_some.1 arrived
      obtain ⟨ct2, -, same⟩ := finishEncaps_alive alive
      rw [same]
      simp only [acked, State.needs, Msg.stage, MsgType.start]
      omega
  | acknowledged current acked =>
      subst current
      obtain ⟨ct2, -, same⟩ := finishEncaps_alive alive
      rw [same]
      simp only [acked, State.needs, Msg.stage, MsgType.start]
      omega
  | lateComplete =>
      obtain ⟨ct2, -, same⟩ := finishEncaps_alive alive
      rw [same]
      exact le_max_left _ _
  | swapped _ _ theirs =>
      simp only [State.needs, Msg.stage, theirs]
      omega

/-! ## Sending -/

namespace Ledger

variable {L : Ledger ikem}

/-- The stream of a value, one codeword on. -/
theorem Streams.next {e : UInt64} {v : Value} {enc : Encoder}
    (streams : L.Streams kdf secret e v enc) :
    L.Streams kdf secret e v enc.nextChunk.2 ∧ enc.position ≤ enc.nextChunk.2.position ∧
      ∀ c, enc.nextChunk.1 = some c → (∃ m, L.value kdf secret e v = some m ∧ Word m c) ∧
        c.index.toNat = enc.position ∧ c.index.toNat < enc.nextChunk.2.position := by
  obtain ⟨m, n, known, rfl⟩ := streams
  refine ⟨⟨m, n + 1, known, by rw [Encoder.nextChunk_at]⟩, Encoder.position_nextChunk _ _,
    fun c issued => ?_⟩
  rw [Encoder.nextChunk_at] at issued ⊢
  obtain ⟨word, index, inside⟩ := Encoder.output_word issued
  refine ⟨⟨m, known, word⟩, ?_⟩
  rw [Encoder.position_at, Encoder.position_at, index]
  omega

/-- The ledger with the key pair of an epoch that has none. -/
def sample (L : Ledger ikem) (e : UInt64) (kp : IncrementalKeyPair)
    (generated : ∃ seed, ikem.generateKeyPair seed = some kp.raw) (fresh : L.keys e = none) :
    Ledger ikem where
  keys := Function.update L.keys e (some kp)
  secrets := L.secrets
  issued := L.issued
  stage := L.stage
  generated := by
    intro e' kp' found
    by_cases same : e' = e
    · subst same
      rw [Function.update_self] at found
      obtain rfl := Option.some.inj found
      exact generated
    · rw [Function.update_of_ne same] at found
      exact L.generated found
  encapsulated := by
    intro e' encaps ct1 raw found
    obtain ⟨kp', r, keys, drawn⟩ := L.encapsulated found
    have other : e' ≠ e := by
      rintro rfl
      rw [fresh] at keys
      cases keys
    exact ⟨kp', r, by rw [Function.update_of_ne other, keys], drawn⟩

/-- The ledger with the secret of an epoch. -/
def draw (L : Ledger ikem) (e : UInt64) (s : EncapsState × Bytes × K)
    (encapsulated : ∃ kp r, L.keys e = some kp ∧
      ikem.encapsulate1 (kp.header ikem) r = some (s.1.raw, s.2.1, s.2.2)) : Ledger ikem where
  keys := L.keys
  secrets := Function.update L.secrets e (some s)
  issued := L.issued
  stage := L.stage
  generated := L.generated
  encapsulated := by
    intro e' encaps ct1 raw found
    by_cases same : e' = e
    · subst same
      rw [Function.update_self] at found
      obtain rfl := Option.some.inj found
      exact encapsulated
    · rw [Function.update_of_ne same] at found
      exact L.encapsulated found

theorem sample_extends {x : Bool} {e : UInt64} (own : x = head e) {kp : IncrementalKeyPair}
    (generated : ∃ seed, ikem.generateKeyPair seed = some kp.raw) (fresh : L.keys e = none) :
    Extends x L (L.sample e kp generated fresh) where
  keys := by
    intro e' kp' found
    have other : e' ≠ e := by
      rintro rfl
      rw [fresh] at found
      cases found
    exact (Function.update_of_ne other _ _).trans found
  secrets found := found
  issued _ _ := le_rfl
  stage _ := le_rfl
  ownKeys := by
    intro e' other
    refine Function.update_of_ne ?_ _ _
    rintro rfl
    exact other own
  ownSecrets _ := rfl
  ownIssued _ := rfl
  ownStage := rfl

theorem draw_extends {x : Bool} {e : UInt64} (own : x ≠ head e) {s : EncapsState × Bytes × K}
    (encapsulated : ∃ kp r, L.keys e = some kp ∧
      ikem.encapsulate1 (kp.header ikem) r = some (s.1.raw, s.2.1, s.2.2))
    (fresh : L.secrets e = none) : Extends x L (L.draw e s encapsulated) where
  keys found := found
  secrets := by
    intro e' s' found
    have other : e' ≠ e := by
      rintro rfl
      rw [fresh] at found
      cases found
    exact (Function.update_of_ne other _ _).trans found
  issued _ _ := le_rfl
  stage _ := le_rfl
  ownKeys _ := rfl
  ownSecrets := by
    intro e' other
    refine Function.update_of_ne ?_ _ _
    rintro rfl
    exact own other
  ownIssued _ := rfl
  ownStage := rfl

/-- A side's streams and stage, read off its state. -/
def advance (L : Ledger ikem) (x : Bool) (st : State K) : Ledger ikem where
  keys := L.keys
  secrets := L.secrets
  issued e v := if v.sender e = x then st.issued e v else L.issued e v
  stage := Function.update L.stage x st.stage
  generated := L.generated
  encapsulated := L.encapsulated

theorem advance_extends {x : Bool} (stage : L.stage x ≤ st'.stage)
    (issued : ∀ e v, v.sender e = x → L.issued e v ≤ st'.issued e v) :
    Extends x L (L.advance x st') where
  keys found := found
  secrets found := found
  issued e v := by
    show _ ≤ if _ then _ else _
    split
    · exact issued e v ‹_›
    · exact le_rfl
  stage y := by
    show L.stage y ≤ Function.update L.stage x st'.stage y
    by_cases same : y = x
    · subst same
      rwa [Function.update_self]
    · rw [Function.update_of_ne same]
  ownKeys _ := rfl
  ownSecrets _ := rfl
  ownIssued other := if_neg other
  ownStage := Function.update_of_ne (by cases x <;> decide) _ _

end Ledger

/-- What a send puts on record: the ledger it leaves agrees with the state it
leaves, the message is of that state's stream, and a line was added only by a
state that had come to add it. -/
structure Records (kdf : Kdf K) (secret : Bytes) (x : Bool) (L L' : Ledger ikem) (st st' : State K)
    (msg : Msg) (out : Option (Output K)) : Prop where
  ext : Extends x L L'
  issued : L'.issued = L.issued
  stage : L'.stage = L.stage
  keys : ∀ e, L'.keys e = L.keys e ∨ 5 * e.toNat < st'.stage
  secrets : ∀ e, L'.secrets e = L.secrets e ∨ 5 * e.toNat + 2 ≤ st'.stage
  agrees : L'.Agrees kdf secret st'
  climbs : Climbs st st'
  needs : st'.needs ≤ st.needs
  sent : msg.stage ≤ st'.stage
  carries : ∀ c, msg.data = some c → ∃ v enc, msg.ty.value = some v ∧ msg.epoch = st'.epoch ∧
    st'.streaming = some (v, enc) ∧ (∃ m, L'.value kdf secret st'.epoch v = some m ∧ Word m c) ∧
    st.issued st'.epoch v ≤ c.index.toNat ∧ c.index.toNat < enc.position
  /-- The type goes with the codeword. -/
  typed : msg.ty ≠ .none → ∃ c, msg.data = some c
  emits : ∀ o, out = some o → ∃ s, L'.secrets o.keyEpoch = some s ∧
    o.key = kdfOk kdf s.2.2 o.keyEpoch

theorem withChunk_data (e : UInt64) (ty : MsgType) (chunk : Option Chunk) {c : Chunk}
    (data : (Msg.withChunk e ty chunk).data = some c) :
    chunk = some c ∧ (Msg.withChunk e ty chunk).epoch = e ∧ (Msg.withChunk e ty chunk).ty = ty := by
  cases chunk with
  | none => cases data
  | some d => exact ⟨data, rfl, rfl⟩

theorem withChunk_typed (e : UInt64) (ty : MsgType) (chunk : Option Chunk)
    (typed : (Msg.withChunk e ty chunk).ty ≠ .none) : ∃ c, (Msg.withChunk e ty chunk).data = some c := by
  cases chunk with
  | none => exact absurd rfl typed
  | some d => exact ⟨d, rfl⟩

theorem withChunk_stage (e : UInt64) (ty : MsgType) (chunk : Option Chunk) :
    (Msg.withChunk e ty chunk).stage ≤ 5 * e.toNat + ty.start := by
  cases chunk with
  | none => simp [Msg.withChunk, Msg.empty, Msg.stage, MsgType.start]
  | some d => exact le_rfl

/-- A message that says nothing, from a state that stays. -/
theorem Records.idle {x : Bool} {L : Ledger ikem} (agrees : L.Agrees kdf secret st) :
    Records kdf secret x L L st st (Msg.empty st.epoch) none where
  ext := .refl x L
  issued := rfl
  stage := rfl
  keys _ := .inl rfl
  secrets _ := .inl rfl
  agrees := agrees
  climbs := .refl _
  needs := le_rfl
  sent := Nat.add_le_add_left (Nat.zero_le _) _
  carries _ data := by cases data
  typed typed := absurd rfl typed
  emits _ out := by cases out

/-- The next codeword of a stream, from a state that stays where it is. -/
theorem Records.stream {x : Bool} {L : Ledger ikem} {v : Value} {ty : MsgType} {enc : Encoder}
    (type : ty.value = some v) (epoch : st'.epoch = st.epoch) (stage : st'.stage = st.stage)
    (needs : st'.needs = st.needs) (before : st.streaming = some (v, enc))
    (after : st'.streaming = some (v, enc.nextChunk.2)) (there : ty.start ≤ st'.place)
    (streams : L.Streams kdf secret st'.epoch v enc) (agrees : L.Agrees kdf secret st') :
    Records kdf secret x L L st st' (Msg.withChunk st'.epoch ty enc.nextChunk.1) none where
  ext := .refl x L
  issued := rfl
  stage := rfl
  keys _ := .inl rfl
  secrets _ := .inl rfl
  agrees := agrees
  climbs := by
    refine ⟨stage.ge, issued_le stage.ge fun w enc' live _ => ?_⟩
    rw [after, Option.some.injEq, Prod.mk.injEq] at live
    obtain ⟨rfl, rfl⟩ := live
    exact ⟨enc, epoch.symm, before, streams.next.2.1⟩
  needs := needs.le
  sent := (withChunk_stage _ _ _).trans (Nat.add_le_add_left there _)
  carries c data := by
    obtain ⟨issued, epoch', type'⟩ := withChunk_data _ _ _ data
    obtain ⟨word, index, inside⟩ := streams.next.2.2 c issued
    refine ⟨v, _, by rw [type', type], epoch', after, word, ?_, inside⟩
    rw [epoch, State.issued_live before, index]
  typed := withChunk_typed _ _ _
  emits _ out := by cases out

/-- The first codeword of a stream. -/
theorem Records.start {x : Bool} {L L' : Ledger ikem} {v : Value} {ty : MsgType} {m : Bytes}
    {out : Option (Output K)} (ext : Extends x L L') (issued : L'.issued = L.issued)
    (stage : L'.stage = L.stage) (keys : ∀ e, L'.keys e = L.keys e ∨ 5 * e.toNat < st'.stage)
    (secrets : ∀ e, L'.secrets e = L.secrets e ∨ 5 * e.toNat + 2 ≤ st'.stage)
    (agrees : L'.Agrees kdf secret st') (climbs : st.stage ≤ st'.stage) (needs : st'.needs ≤ st.needs)
    (type : ty.value = some v) (after : st'.streaming = some (v, (Encoder.new m).nextChunk.2))
    (starts : st.stage < 5 * st'.epoch.toNat + v.start) (there : ty.start ≤ st'.place)
    (known : L'.value kdf secret st'.epoch v = some m)
    (emits : ∀ o, out = some o → ∃ s, L'.secrets o.keyEpoch = some s ∧
      o.key = kdfOk kdf s.2.2 o.keyEpoch) :
    Records kdf secret x L L' st st' (Msg.withChunk st'.epoch ty (Encoder.new m).nextChunk.1) out where
  ext := ext
  issued := issued
  stage := stage
  keys := keys
  secrets := secrets
  agrees := agrees
  climbs := by
    refine .of_start climbs fun w enc live => ?_
    rw [after, Option.some.injEq, Prod.mk.injEq] at live
    obtain ⟨rfl, -⟩ := live
    exact starts
  needs := needs
  sent := (withChunk_stage _ _ _).trans (Nat.add_le_add_left there _)
  carries c data := by
    have streams : L'.Streams kdf secret st'.epoch v (Encoder.new m) := ⟨m, 0, known, Encoder.new_at m⟩
    obtain ⟨issued, epoch', type'⟩ := withChunk_data _ _ _ data
    obtain ⟨word, -, inside⟩ := streams.next.2.2 c issued
    refine ⟨v, _, by rw [type', type], epoch', after, word, ?_, inside⟩
    rw [State.issued, if_pos starts]
    exact Nat.zero_le _
  typed := withChunk_typed _ _ _
  emits := emits

theorem generate_honest (honest : ikem.Honest) (rng : Rng) :
    ∃ kp rng', IncrementalKeyPair.generate ikem rng = (some kp, rng') ∧
      ∃ seed, ikem.generateKeyPair seed = some kp.raw := by
  obtain ⟨raw, generated⟩ := honest.generates (fillBytes 64 rng).1
  refine ⟨⟨raw⟩, (fillBytes 64 rng).2, ?_, _, generated⟩
  simp only [IncrementalKeyPair.generate, generated, Option.map_some]

theorem encapsulate1_honest (honest : ikem.Honest) {L : Ledger ikem} {e : UInt64} {header : Bytes}
    (has : L.HasHeader e header) (rng : Rng) :
    ∃ encaps ct1 raw rng', encapsulate1 ikem header rng = (some (encaps, ct1, raw), rng') ∧
      ∃ kp r, L.keys e = some kp ∧
        ikem.encapsulate1 (kp.header ikem) r = some (encaps.raw, ct1, raw) := by
  obtain ⟨kp, keys, rfl⟩ := has
  obtain ⟨seed, generated⟩ := L.generated keys
  obtain ⟨st, ct1, raw, drawn⟩ := honest.encapsulates _ _ (fillBytes 32 rng).1 generated
  have length : (kp.header ikem).length = headerLen := honest.header_length _
  have drawn' : ikem.encapsulate1 (kp.header ikem) (fillBytes 32 rng).1 = some (st, ct1, raw) := drawn
  refine ⟨⟨st⟩, ct1, raw, (fillBytes 32 rng).2, ?_, kp, _, keys, drawn⟩
  unfold encapsulate1
  rw [if_neg (not_not.2 length)]
  simp only [drawn', Option.map_some]

/-- **What a send puts on record.** -/
theorem stepSend_records (honest : ikem.Honest) {x : Bool} {L : Ledger ikem}
    (role : st.isInitiator = some x)
    (positive : 1 ≤ st.epoch.toNat) (agrees : L.Agrees kdf secret st)
    (freshKeys : ∀ e, x = head e → st.stage ≤ 5 * e.toNat → L.keys e = none)
    (freshSecrets : ∀ e, x ≠ head e → st.stage < 5 * e.toNat + 2 → L.secrets e = none) (rng : Rng) :
    ∃ L', Records kdf secret x L L' st (stepSend kdf ikem rng st).2.2.1
      (stepSend kdf ikem rng st).1 (stepSend kdf ikem rng st).2.1 := by
  cases st with
  | failed => exact agrees.elim
  | ekSentCt1Received | noHeaderReceived | ct1Acknowledged => exact ⟨L, .idle agrees⟩
  | keysSampled =>
      obtain ⟨auth, keys, streams⟩ := agrees
      exact ⟨L, .stream (v := .header) rfl rfl rfl rfl rfl rfl le_rfl streams
        ⟨auth, keys, streams.next.1⟩⟩
  | headerSent =>
      obtain ⟨auth, keys, gathers, streams⟩ := agrees
      exact ⟨L, .stream (v := .ekVector) rfl rfl rfl rfl rfl rfl le_rfl streams
        ⟨auth, keys, gathers, streams.next.1⟩⟩
  | ct1Received =>
      obtain ⟨auth, keys, ct1, streams⟩ := agrees
      exact ⟨L, .stream (v := .ekVector) rfl rfl rfl rfl rfl rfl le_rfl streams
        ⟨auth, keys, ct1, streams.next.1⟩⟩
  | ct1Sampled =>
      obtain ⟨auth, header, encaps, streams, gathers⟩ := agrees
      exact ⟨L, .stream (v := .ct1) rfl rfl rfl rfl rfl rfl le_rfl streams
        ⟨auth, header, encaps, streams.next.1, gathers⟩⟩
  | ekReceivedCt1Sampled =>
      obtain ⟨auth, encaps, ekVector, streams⟩ := agrees
      exact ⟨L, .stream (v := .ct1) rfl rfl rfl rfl rfl rfl (Nat.le_succ 2) streams
        ⟨auth, encaps, ekVector, streams.next.1⟩⟩
  | ct2Sampled =>
      obtain ⟨auth, streams⟩ := agrees
      exact ⟨L, .stream (v := .ct2) rfl rfl rfl rfl rfl rfl le_rfl streams
        ⟨auth, streams.next.1⟩⟩
  | keysUnsampled e a =>
      have own : x = head e := (Option.some.inj role).symm
      have fresh := freshKeys e own le_rfl
      obtain ⟨kp, rng', drawn, generated⟩ := generate_honest honest rng
      have ext := L.sample_extends own generated fresh
      have keys : (L.sample e kp generated fresh).keys e = some kp := Function.update_self _ _ _
      have auth := ext.auth agrees
      have known : (L.sample e kp generated fresh).value kdf secret e .header =
          some (kp.header ikem ++ a.macHdr kdf e (kp.header ikem)) := by
        simp only [Ledger.value, keys, auth, Option.bind_some, Option.map_some]
      simp only [stepSend, drawn]
      refine ⟨_, .start (v := .header) ext rfl rfl (fun e' => ?_) (fun _ => .inl rfl) ?_ ?_ le_rfl rfl
        rfl ?_ le_rfl known (by simp)⟩
      · by_cases same : e' = e
        · subst same
          exact .inr (Nat.lt_succ_self _)
        · exact .inl (Function.update_of_ne same _ _)
      · exact ⟨auth, keys, Ledger.Streams.next ⟨_, 0, known, Encoder.new_at _⟩ |>.1⟩
      · exact Nat.le_succ _
      · exact Nat.lt_succ_self _
  | headerReceived e a header dec =>
      have own : x ≠ head e := by
        rw [← Option.some.inj role]
        show (!head e) ≠ head e
        cases head e <;> decide
      have fresh := freshSecrets e own (Nat.lt_succ_self _)
      obtain ⟨auth, has, gathers⟩ := agrees
      obtain ⟨encaps, ct1, raw, rng', drawn, encapsulated⟩ := encapsulate1_honest honest has rng
      have ext := L.draw_extends own (s := (encaps, ct1, raw)) encapsulated fresh
      have secrets : (L.draw e (encaps, ct1, raw) encapsulated).secrets e = some (encaps, ct1, raw) :=
        Function.update_self _ _ _
      have known : (L.draw e (encaps, ct1, raw) encapsulated).value kdf secret e .ct1 = some ct1 := by
        simp only [Ledger.value, secrets, Option.map_some]
      have ratcheted : (L.draw e (encaps, ct1, raw) encapsulated).auth kdf secret e.toNat =
          some (a.update kdf e (kdf.bytes (kdfOk kdf raw e))) := by
        obtain ⟨n, epoch⟩ : ∃ n, e.toNat = n + 1 := ⟨e.toNat - 1, by
          simp only [State.epoch] at positive
          omega⟩
        have number : UInt64.ofNat (n + 1) = e := by rw [← epoch, UInt64.ofNat_toNat]
        rw [epoch, Nat.add_sub_cancel] at auth
        rw [epoch, Ledger.auth, ext.auth auth, number, secrets]
        rfl
      simp only [stepSend, drawn]
      refine ⟨_, .start (v := .ct1) ext rfl rfl (fun _ => .inl rfl) (fun e' => ?_) ?_ ?_ le_rfl rfl
        rfl ?_ le_rfl known ?_⟩
      · by_cases same : e' = e
        · subst same
          exact .inr le_rfl
        · exact .inl (Function.update_of_ne same _ _)
      · exact ⟨ratcheted, has.mono ext, ⟨raw, secrets⟩,
          Ledger.Streams.next ⟨_, 0, known, Encoder.new_at _⟩ |>.1, gathers.mono ext⟩
      · exact Nat.le_succ _
      · exact Nat.lt_succ_self _
      · rintro o emitted
        obtain rfl := Option.some.inj emitted
        exact ⟨_, secrets, rfl⟩

/-! ## One end -/

/-- What a call answers with: the key it emits, the epoch it reports. -/
inductive Event (K : Type) where
  | emitted (o : Output K)
  | reported (epoch : UInt64)

def Event.output : Event K → Option (Output K)
  | .emitted o => some o
  | .reported _ => none

def answers (out : Option (Output K)) (epoch : UInt64) : List (Event K) :=
  out.toList.map .emitted ++ [.reported epoch]

@[simp] theorem filterMap_answers (out : Option (Output K)) (epoch : UInt64) :
    (answers out epoch).filterMap Event.output = out.toList := by
  cases out <;> rfl

/-- `Braid::send` and `Braid::receive`, as one end of a network. -/
def endOf (kdf : Kdf K) (ikem : IncKem K) : Network.End (Braid K) Rng Msg (Event K) where
  send b rng :=
    let answer := b.send kdf ikem rng
    (answer.1, answer.2.2.2.1, answers answer.2.2.1 answer.2.1)
  receive b msg :=
    let answer := b.receive kdf ikem msg
    (answer.2.2, answers answer.2.1 answer.1)

/-- **What one end knows**, of itself and of the ledger. -/
structure Holds (kdf : Kdf K) (secret : Bytes) (x : Bool) (L : Ledger ikem)
    (past : List (Event K)) (b : Braid K) : Prop where
  along : Along x (past.filterMap Event.output) b
  agrees : L.Agrees kdf secret b.state
  stage : L.stage x = b.state.stage
  needs : b.state.needs ≤ L.stage !x
  issued : ∀ e v, v.sender e = x → L.issued e v = b.state.issued e v
  /-- It has drawn nothing it has not come to. -/
  freshKeys : ∀ e, x = head e → b.state.stage ≤ 5 * e.toNat → L.keys e = none
  freshSecrets : ∀ e, x ≠ head e → b.state.stage < 5 * e.toNat + 2 → L.secrets e = none
  /-- Every key it emitted is the key of its epoch's secret. -/
  outputs : ∀ o ∈ past.filterMap Event.output, ∃ s, L.secrets o.keyEpoch = some s ∧
    o.key = kdfOk kdf s.2.2 o.keyEpoch

namespace Holds

variable {x : Bool} {L L' : Ledger ikem} {past : List (Event K)} {b : Braid K}

theorem positive (holds : Holds kdf secret x L past b) : 1 ≤ b.state.epoch.toNat := by
  have one := holds.along.positive holds.agrees.alive
  rwa [UInt64.le_iff_toNat_le, UInt64.toNat_one] at one

theorem role (holds : Holds kdf secret x L past b) : b.state.isInitiator = some x :=
  holds.along.role holds.agrees.alive

/-- What the peer adds leaves it be. -/
theorem stable (holds : Holds kdf secret x L past b) (ext : Extends (!x) L L') :
    Holds kdf secret x L' past b where
  along := holds.along
  agrees := holds.agrees.mono ext
  stage := by
    have own := ext.ownStage
    rw [Bool.not_not] at own
    rw [own, holds.stage]
  needs := holds.needs.trans (ext.stage _)
  issued e v own := by
    have other : v.sender e ≠ !x := by
      rw [own]
      cases x <;> decide
    rw [ext.ownIssued other, holds.issued e v own]
  freshKeys e own before := by
    have other : (!x) ≠ head e := by
      rw [← own]
      cases x <;> decide
    rw [ext.ownKeys other, holds.freshKeys e own before]
  freshSecrets e other before := by
    have own : (!x) = head e := by cases x <;> cases h : head e <;> simp_all
    rw [ext.ownSecrets own, holds.freshSecrets e other before]
  outputs o emitted := by
    obtain ⟨s, secrets, key⟩ := holds.outputs o emitted
    exact ⟨s, ext.secrets secrets, key⟩

/-- **A move of this end**, which may put something on record first. -/
theorem moved {L₁ : Ledger ikem} (holds : Holds kdf secret x L past b) (ext : Extends x L L₁)
    (sameIssued : L₁.issued = L.issued) (sameStage : L₁.stage = L.stage)
    (keys : ∀ e, L₁.keys e = L.keys e ∨ 5 * e.toNat < st'.stage)
    (secrets : ∀ e, L₁.secrets e = L.secrets e ∨ 5 * e.toNat + 2 ≤ st'.stage)
    (agrees : L₁.Agrees kdf secret st') (climbs : Climbs b.state st')
    (needs : st'.needs ≤ L.stage !x) {out : Option (Output K)}
    (along : Along x (past.filterMap Event.output ++ out.toList) ⟨st'⟩)
    (emits : ∀ o, out = some o → ∃ s, L₁.secrets o.keyEpoch = some s ∧
      o.key = kdfOk kdf s.2.2 o.keyEpoch) (epoch : UInt64) :
    Extends x L (L₁.advance x st') ∧
      Holds kdf secret x (L₁.advance x st') (past ++ answers out epoch) ⟨st'⟩ := by
  have further : Extends x L₁ (L₁.advance x st') := by
    refine Ledger.advance_extends ?_ fun e v own => ?_
    · rw [sameStage, holds.stage]
      exact climbs.stage
    · rw [sameIssued, holds.issued e v own]
      exact climbs.issued e v
  refine ⟨ext.trans further, ?_, agrees.mono further, ?_, ?_, ?_, ?_, ?_, ?_⟩
  · rwa [List.filterMap_append, filterMap_answers]
  · exact Function.update_self _ _ _
  · rw [further.ownStage, sameStage]
    exact needs
  · intro e v own
    exact if_pos own
  · intro e own before
    rcases keys e with same | drawn
    · show L₁.keys e = none
      rw [same]
      exact holds.freshKeys e own (climbs.stage.trans before)
    · exact absurd before (Nat.not_le.2 drawn)
  · intro e other before
    rcases secrets e with same | drawn
    · show L₁.secrets e = none
      rw [same]
      exact holds.freshSecrets e other (climbs.stage.trans_lt before)
    · exact absurd before (Nat.not_lt.2 drawn)
  · intro o emitted
    rw [List.filterMap_append, filterMap_answers] at emitted
    rcases List.mem_append.1 emitted with before | now
    · obtain ⟨s, found, key⟩ := holds.outputs o before
      exact ⟨s, ext.secrets found, key⟩
    · exact emits o (by simpa using now)

/-- **Sending.** -/
theorem send (honest : ikem.Honest) (holds : Holds kdf secret x L past b) (rng : Rng) :
    ∃ L', Extends x L L' ∧
      Holds kdf secret x L' (past ++ ((endOf kdf ikem).send b rng).2.2)
        ((endOf kdf ikem).send b rng).2.1 ∧
      L'.Carries kdf secret x ((endOf kdf ikem).send b rng).1 := by
  obtain ⟨L₁, records⟩ := stepSend_records honest holds.role holds.positive holds.agrees
    holds.freshKeys holds.freshSecrets rng
  have along : Along x (past.filterMap Event.output ++
      (stepSend kdf ikem rng b.state).2.1.toList) ⟨(stepSend kdf ikem rng b.state).2.2.1⟩ :=
    move_along x _ b (.send rng) trivial holds.along
  obtain ⟨ext, after⟩ := holds.moved records.ext records.issued records.stage records.keys
    records.secrets records.agrees records.climbs (records.needs.trans holds.needs) along
    records.emits ((b.send kdf ikem rng).2.1)
  refine ⟨_, ext, after, fun {c} data => ?_, ?_⟩
  · obtain ⟨v, enc, type, epoch, live, word, -, index⟩ := records.carries c data
    have role := after.role
    have own : v.sender (stepSend kdf ikem rng b.state).2.2.1.epoch = x :=
      State.streaming_sender role live
    have further : Extends x L₁ (L₁.advance x (stepSend kdf ikem rng b.state).2.2.1) := by
      refine Ledger.advance_extends ?_ fun e w own => ?_
      · rw [records.stage, holds.stage]
        exact records.climbs.stage
      · rw [records.issued, holds.issued e w own]
        exact records.climbs.issued e w
    refine ⟨v, type, ?_, ?_⟩
    · obtain ⟨m, known, word⟩ := word
      exact ⟨m, by rw [show ((endOf kdf ikem).send b rng).1.epoch = _ from epoch]; exact further.value known, word⟩
    · rw [show ((endOf kdf ikem).send b rng).1.epoch = _ from epoch, after.issued _ _ own]
      rw [State.issued_live live]
      exact index
  · rw [after.stage]
    exact records.sent

/-- **Receiving** what the peer honestly sent. -/
theorem receive (honest : ikem.Honest) (sized : kdf.Sized) (holds : Holds kdf secret x L past b)
    (below : b.epoch.toNat + 2 < 2 ^ 64) {msg : Msg} (carries : L.Carries kdf secret (!x) msg) :
    ∃ L', Extends x L L' ∧
      Holds kdf secret x L' (past ++ ((endOf kdf ikem).receive b msg).2)
        ((endOf kdf ikem).receive b msg).1 := by
  have takes := stepReceive_takes kdf ikem msg b.state
  obtain ⟨agrees, emits⟩ := takes.agrees honest sized holds.positive below holds.agrees carries
  have alive := agrees.alive
  have along : Along x (past.filterMap Event.output ++
      (b.receive kdf ikem msg).2.1.toList) (b.receive kdf ikem msg).2.2 :=
    move_along x _ b (.receive msg) trivial holds.along
  have answer := receive_snd kdf ikem b msg
  have needs := (takes.needs alive).trans (max_le holds.needs carries.stage)
  rw [answer] at along
  obtain ⟨ext, after⟩ := holds.moved (.refl x L) rfl rfl (fun _ => .inl rfl) (fun _ => .inl rfl)
    agrees (takes.climbs alive) needs along emits (b.receive kdf ikem msg).1
  refine ⟨_, ext, ?_⟩
  have same : (endOf kdf ikem).receive b msg = (⟨(stepReceive kdf ikem msg b.state).2⟩,
      answers (stepReceive kdf ikem msg b.state).1 (b.receive kdf ikem msg).1) := by
    show ((b.receive kdf ikem msg).2.2, answers (b.receive kdf ikem msg).2.1 _) = _
    rw [answer]
  rw [same]
  exact after

end Holds

/-- **Both ends of the agreement, one at a time.** -/
def discipline (kdf : Kdf K) (secret : Bytes) (honest : ikem.Honest) (sized : kdf.Sized) :
    Network.Discipline (endOf kdf ikem) (Ledger ikem) where
  holds := Holds kdf secret
  honest x L msg := L.Carries kdf secret x msg
  moves := Extends
  fine b := b.epoch.toNat + 2 < 2 ^ 64
  sends _ holds rng := holds.send honest rng
  receives below holds carries := holds.receive honest sized below carries
  stable ext holds := holds.stable ext
  remembers ext carries := carries.mono ext

end Tacenta.Braid
