/-
# Tacenta.Braid.Ledger -- what an honest agreement has drawn so far

Two ends of one agreement share nothing but messages.  `Ledger` is what a reader
of both would have written down: the key pair and the secret of each epoch, how
far each stream has gone and how far each end has come.  It only grows, and each
end adds its own lines (`Extends`).

A state, a message and a decoder are then right or wrong against the ledger
alone: `Agrees`, `Carries`, `Gathers`.  `Takes.agrees` is the half of the
agreement that receives: a state that agrees with the ledger, handed a message
that does, is left in one that does, so the three transitions that can fail do
not.
-/
import Tacenta.Braid.Runs
import Tacenta.Erasure.Gather

set_option autoImplicit false
set_option linter.dupNamespace false

namespace Tacenta.Braid

open Tacenta.Erasure (Chunk Encoder Decoder Word chunkCount)
open Tacenta.Kem

variable {K : Type} {kdf : Kdf K} {ikem : IncKem K} {secret : Bytes}

/-! ## Epochs, values and stages -/

/-- The four values an epoch streams. -/
inductive Value where
  | header
  | ekVector
  | ct1
  | ct2
  deriving DecidableEq

/-- What a message of this type carries codewords of. -/
def MsgType.value : MsgType → Option Value
  | .none => .none
  | .hdr => some .header
  | .ek | .ekCt1Ack => some .ekVector
  | .ct1 => some .ct1
  | .ct2 => some .ct2

/-- The length of the value as it is streamed. -/
def Value.len : Value → Nat
  | .header => headerLen + macLen
  | .ekVector => ekVectorLen
  | .ct1 => ct1Len
  | .ct2 => ct2Len + macLen

/-- The side that sends the header of an epoch: the initiator in odd ones. -/
def head (e : UInt64) : Bool := e % 2 == 1

/-- The side that streams a value. -/
def Value.sender (e : UInt64) : Value → Bool
  | .header | .ekVector => head e
  | .ct1 | .ct2 => !head e

/-- How far into its epoch an end must be to stream a value. -/
def Value.start : Value → Nat
  | .header => 1
  | .ekVector | .ct1 => 2
  | .ct2 => 4

/-- How far into its epoch an end must be to send a message of this type. -/
def MsgType.start : MsgType → Nat
  | .none => 0
  | .hdr => 1
  | .ek | .ct1 => 2
  | .ekCt1Ack => 3
  | .ct2 => 4

def Msg.stage (msg : Msg) : Nat := 5 * msg.epoch.toNat + msg.ty.start

namespace State

/-- How far a state is into its epoch. -/
def place : State K → Nat
  | keysUnsampled .. | noHeaderReceived .. | failed => 0
  | keysSampled .. | headerReceived .. => 1
  | headerSent .. | ct1Sampled .. => 2
  | ct1Received .. | ekReceivedCt1Sampled .. | ct1Acknowledged .. => 3
  | ekSentCt1Received .. | ct2Sampled .. => 4

/-- Epochs and places in one count, which no transition takes back. -/
def stage (st : State K) : Nat := 5 * st.epoch.toNat + st.place

/-- The stage the peer must have come to for this state to be reached. -/
def needs : State K → Nat
  | keysUnsampled e _ | keysSampled e .. => 5 * e.toNat
  | headerSent e .. | ct1Received e .. => 5 * e.toNat + 2
  | ekSentCt1Received e .. => 5 * e.toNat + 4
  | noHeaderReceived e .. => 5 * e.toNat - 1
  | headerReceived e .. | ct1Sampled e .. => 5 * e.toNat + 1
  | ekReceivedCt1Sampled e .. => 5 * e.toNat + 2
  | ct1Acknowledged e .. | ct2Sampled e .. => 5 * e.toNat + 3
  | failed => 0

/-- The stream a state is sending from. -/
def streaming : State K → Option (Value × Encoder)
  | keysSampled _ _ _ enc => some (.header, enc)
  | headerSent _ _ _ _ enc | ct1Received _ _ _ _ enc => some (.ekVector, enc)
  | ct1Sampled _ _ _ _ _ enc _ | ekReceivedCt1Sampled _ _ _ _ _ enc => some (.ct1, enc)
  | ct2Sampled _ _ enc => some (.ct2, enc)
  | _ => none

/-- The position of the stream of `v`, if this state is sending from it. -/
def position (st : State K) (v : Value) : Option Nat :=
  match st.streaming with
  | some (w, enc) => if w = v then some enc.position else none
  | none => none

/-- A bound on the codewords of a value this end has issued: none before its
stream starts, and no more than the stream's position while it runs. -/
def issued (st : State K) (e : UInt64) (v : Value) : Nat :=
  if st.stage < 5 * e.toNat + v.start then 0
  else if st.epoch = e then (st.position v).getD Erasure.maxCodewords
  else Erasure.maxCodewords

end State

/-! ## The ledger -/

/-- The key pairs and secrets drawn, and where the ends and their streams are. -/
structure Ledger (ikem : IncKem K) where
  keys : UInt64 → Option IncrementalKeyPair
  secrets : UInt64 → Option (EncapsState × Bytes × K)
  issued : UInt64 → Value → Nat
  stage : Bool → Nat
  /-- Key pairs are generated, -/
  generated : ∀ {e kp}, keys e = some kp → ∃ seed, ikem.generateKeyPair seed = some kp.raw
  /-- and secrets are encapsulated to the key pair of their epoch. -/
  encapsulated : ∀ {e encaps ct1 raw}, secrets e = some (encaps, ct1, raw) →
    ∃ kp r, keys e = some kp ∧ ikem.encapsulate1 (kp.header ikem) r = some (encaps.raw, ct1, raw)

namespace Ledger

variable {L L' : Ledger ikem} {x : Bool}

/-- The authenticator after `n` epochs, once their secrets are drawn. -/
def auth (kdf : Kdf K) (secret : Bytes) (L : Ledger ikem) : Nat → Option (Auth K)
  | 0 => some (Auth.init kdf 1 secret)
  | n + 1 =>
      (L.auth kdf secret n).bind fun a => (L.secrets (UInt64.ofNat (n + 1))).map fun s =>
        a.update kdf (UInt64.ofNat (n + 1)) (kdf.bytes (kdfOk kdf s.2.2 (UInt64.ofNat (n + 1))))

/-- What the codewords of a value are codewords of. -/
def value (kdf : Kdf K) (secret : Bytes) (L : Ledger ikem) (e : UInt64) : Value → Option Bytes
  | .header => (L.keys e).bind fun kp => (L.auth kdf secret (e.toNat - 1)).map fun a =>
      kp.header ikem ++ a.macHdr kdf e (kp.header ikem)
  | .ekVector => (L.keys e).map fun kp => kp.ekVector ikem
  | .ct1 => (L.secrets e).map fun s => s.2.1
  | .ct2 => (L.keys e).bind fun kp => (L.secrets e).bind fun s =>
      (L.auth kdf secret e.toNat).map fun a =>
        ikem.encapsulate2 s.1.raw (kp.ekVector ikem) ++
          a.macCt kdf e s.2.1 (ikem.encapsulate2 s.1.raw (kp.ekVector ikem))

/-- `x` adds to the ledger, and only its own lines. -/
structure Extends (x : Bool) (L L' : Ledger ikem) : Prop where
  keys : ∀ {e kp}, L.keys e = some kp → L'.keys e = some kp
  secrets : ∀ {e s}, L.secrets e = some s → L'.secrets e = some s
  issued : ∀ e v, L.issued e v ≤ L'.issued e v
  stage : ∀ y, L.stage y ≤ L'.stage y
  ownKeys : ∀ {e}, x ≠ head e → L'.keys e = L.keys e
  ownSecrets : ∀ {e}, x = head e → L'.secrets e = L.secrets e
  ownIssued : ∀ {e v}, Value.sender e v ≠ x → L'.issued e v = L.issued e v
  ownStage : L'.stage (!x) = L.stage (!x)

theorem Extends.refl (x : Bool) (L : Ledger ikem) : Extends x L L :=
  ⟨id, id, fun _ _ => le_rfl, fun _ => le_rfl, fun _ => rfl, fun _ => rfl, fun _ => rfl, rfl⟩

theorem Extends.trans {L'' : Ledger ikem} (first : Extends x L L') (second : Extends x L' L'') :
    Extends x L L'' where
  keys found := second.keys (first.keys found)
  secrets found := second.secrets (first.secrets found)
  issued e v := (first.issued e v).trans (second.issued e v)
  stage y := (first.stage y).trans (second.stage y)
  ownKeys other := (second.ownKeys other).trans (first.ownKeys other)
  ownSecrets own := (second.ownSecrets own).trans (first.ownSecrets own)
  ownIssued other := (second.ownIssued other).trans (first.ownIssued other)
  ownStage := second.ownStage.trans first.ownStage

theorem Extends.auth (ext : Extends x L L') {n : Nat} {a : Auth K}
    (known : L.auth kdf secret n = some a) : L'.auth kdf secret n = some a := by
  induction n generalizing a with
  | zero => exact known
  | succ n ih =>
      rw [Ledger.auth, Option.bind_eq_some_iff] at known ⊢
      obtain ⟨before, auth, drawn⟩ := known
      obtain ⟨s, found, rfl⟩ := Option.map_eq_some_iff.1 drawn
      exact ⟨before, ih auth, by rw [ext.secrets found]; rfl⟩

theorem Extends.value (ext : Extends x L L') {e : UInt64} {v : Value} {m : Bytes}
    (known : L.value kdf secret e v = some m) : L'.value kdf secret e v = some m := by
  cases v with
  | header =>
      obtain ⟨kp, keys, rest⟩ := Option.bind_eq_some_iff.1 known
      obtain ⟨a, auth, rfl⟩ := Option.map_eq_some_iff.1 rest
      simp only [Ledger.value, ext.keys keys, ext.auth auth, Option.bind_some, Option.map_some]
  | ekVector =>
      obtain ⟨kp, keys, rfl⟩ := Option.map_eq_some_iff.1 known
      simp only [Ledger.value, ext.keys keys, Option.map_some]
  | ct1 =>
      obtain ⟨s, secrets, rfl⟩ := Option.map_eq_some_iff.1 known
      simp only [Ledger.value, ext.secrets secrets, Option.map_some]
  | ct2 =>
      obtain ⟨kp, keys, rest⟩ := Option.bind_eq_some_iff.1 known
      obtain ⟨s, secrets, rest⟩ := Option.bind_eq_some_iff.1 rest
      obtain ⟨a, auth, rfl⟩ := Option.map_eq_some_iff.1 rest
      simp only [Ledger.value, ext.keys keys, ext.secrets secrets, ext.auth auth,
        Option.bind_some, Option.map_some]

/-- A value has the length it is streamed at. -/
theorem value_length (honest : ikem.Honest) (sized : kdf.Sized) {e : UInt64} {v : Value} {m : Bytes}
    (known : L.value kdf secret e v = some m) : m.length = v.len := by
  cases v with
  | header =>
      obtain ⟨kp, keys, rest⟩ := Option.bind_eq_some_iff.1 known
      obtain ⟨a, auth, rfl⟩ := Option.map_eq_some_iff.1 rest
      simp [Value.len, IncrementalKeyPair.header, honest.header_length, Auth.macHdr, sized _, macLen]
  | ekVector =>
      obtain ⟨kp, keys, rfl⟩ := Option.map_eq_some_iff.1 known
      exact honest.ekVector_length _
  | ct1 =>
      obtain ⟨⟨encaps, ct1, raw⟩, secrets, rfl⟩ := Option.map_eq_some_iff.1 known
      obtain ⟨kp, r, -, drawn⟩ := L.encapsulated secrets
      exact honest.ct1_length _ _ _ _ _ drawn
  | ct2 =>
      obtain ⟨kp, keys, rest⟩ := Option.bind_eq_some_iff.1 known
      obtain ⟨s, secrets, rest⟩ := Option.bind_eq_some_iff.1 rest
      obtain ⟨a, auth, rfl⟩ := Option.map_eq_some_iff.1 rest
      simp [Value.len, honest.ct2_length, Auth.macCt, sized _, macLen]

/-! ## What is right against the ledger -/

/-- A codeword of a value, at an index its stream has come to. -/
def Streamed (kdf : Kdf K) (secret : Bytes) (L : Ledger ikem) (e : UInt64) (v : Value) (c : Chunk) :
    Prop :=
  (∃ m, L.value kdf secret e v = some m ∧ Word m c) ∧ c.index.toNat < L.issued e v

/-- A decoder of a value that has not come to enough of its codewords. -/
structure Gathers (kdf : Kdf K) (secret : Bytes) (L : Ledger ikem) (e : UInt64) (v : Value)
    (dec : Decoder) : Prop where
  size : dec.size = v.len
  invariant : dec.invariant = true
  words : ∀ c ∈ dec.held, L.Streamed kdf secret e v c
  short : dec.held.length < dec.needed

/-- A stream of a value, at some place. -/
def Streams (kdf : Kdf K) (secret : Bytes) (L : Ledger ikem) (e : UInt64) (v : Value)
    (enc : Encoder) : Prop :=
  ∃ m n, L.value kdf secret e v = some m ∧ enc = Encoder.at_ (Encoder.new m).chunks n

/-- The key pair and header of an epoch, and the secret encapsulated to it. -/
def HasHeader (L : Ledger ikem) (e : UInt64) (header : Bytes) : Prop :=
  ∃ kp, L.keys e = some kp ∧ header = kp.header ikem

def HasSecret (L : Ledger ikem) (e : UInt64) (encaps : EncapsState) (ct1 : Bytes) : Prop :=
  ∃ raw, L.secrets e = some (encaps, ct1, raw)

/-- **What each state knows**, in the ledger's terms. -/
def Agrees (kdf : Kdf K) (secret : Bytes) (L : Ledger ikem) : State K → Prop
  | .keysUnsampled e a => L.auth kdf secret (e.toNat - 1) = some a
  | .keysSampled e a kp enc =>
      L.auth kdf secret (e.toNat - 1) = some a ∧ L.keys e = some kp ∧
        L.Streams kdf secret e .header enc
  | .headerSent e a kp dec enc =>
      L.auth kdf secret (e.toNat - 1) = some a ∧ L.keys e = some kp ∧
        L.Gathers kdf secret e .ct1 dec ∧ L.Streams kdf secret e .ekVector enc
  | .ct1Received e a kp ct1 enc =>
      L.auth kdf secret (e.toNat - 1) = some a ∧ L.keys e = some kp ∧
        L.value kdf secret e .ct1 = some ct1 ∧ L.Streams kdf secret e .ekVector enc
  | .ekSentCt1Received e a kp ct1 dec =>
      L.auth kdf secret (e.toNat - 1) = some a ∧ L.keys e = some kp ∧
        L.value kdf secret e .ct1 = some ct1 ∧ L.Gathers kdf secret e .ct2 dec
  | .noHeaderReceived e a dec =>
      L.auth kdf secret (e.toNat - 1) = some a ∧ L.Gathers kdf secret e .header dec
  | .headerReceived e a header dec =>
      L.auth kdf secret (e.toNat - 1) = some a ∧ L.HasHeader e header ∧
        L.Gathers kdf secret e .ekVector dec
  | .ct1Sampled e a header encaps ct1 enc dec =>
      L.auth kdf secret e.toNat = some a ∧ L.HasHeader e header ∧ L.HasSecret e encaps ct1 ∧
        L.Streams kdf secret e .ct1 enc ∧ L.Gathers kdf secret e .ekVector dec
  | .ekReceivedCt1Sampled e a encaps ct1 ekVector enc =>
      L.auth kdf secret e.toNat = some a ∧ L.HasSecret e encaps ct1 ∧
        L.value kdf secret e .ekVector = some ekVector ∧ L.Streams kdf secret e .ct1 enc
  | .ct1Acknowledged e a header encaps ct1 dec =>
      L.auth kdf secret e.toNat = some a ∧ L.HasHeader e header ∧ L.HasSecret e encaps ct1 ∧
        L.Gathers kdf secret e .ekVector dec
  | .ct2Sampled e a enc =>
      L.auth kdf secret e.toNat = some a ∧ L.Streams kdf secret e .ct2 enc
  | .failed => False

/-- **What a message of `x`'s says.** -/
structure Carries (kdf : Kdf K) (secret : Bytes) (x : Bool) (L : Ledger ikem) (msg : Msg) :
    Prop where
  streamed : ∀ {c}, msg.data = some c → ∃ v, msg.ty.value = some v ∧
    L.Streamed kdf secret msg.epoch v c
  stage : msg.stage ≤ L.stage x

theorem Agrees.alive {st : State K} (agrees : L.Agrees kdf secret st) : st ≠ .failed := by
  rintro rfl
  exact agrees

/-! ## Adding to the ledger takes none of it back -/

section Mono

variable (ext : Extends x L L') {e : UInt64} {v : Value}
include ext

theorem Streamed.mono {c : Chunk} (streamed : L.Streamed kdf secret e v c) :
    L'.Streamed kdf secret e v c := by
  obtain ⟨⟨m, known, word⟩, index⟩ := streamed
  exact ⟨⟨m, ext.value known, word⟩, index.trans_le (ext.issued e v)⟩

theorem Gathers.mono {dec : Decoder} (gathers : L.Gathers kdf secret e v dec) :
    L'.Gathers kdf secret e v dec :=
  ⟨gathers.size, gathers.invariant, fun c held => (gathers.words c held).mono ext, gathers.short⟩

theorem Streams.mono {enc : Encoder} (streams : L.Streams kdf secret e v enc) :
    L'.Streams kdf secret e v enc := by
  obtain ⟨m, n, known, at_⟩ := streams
  exact ⟨m, n, ext.value known, at_⟩

theorem HasHeader.mono {header : Bytes} (has : L.HasHeader e header) : L'.HasHeader e header := by
  obtain ⟨kp, keys, same⟩ := has
  exact ⟨kp, ext.keys keys, same⟩

theorem HasSecret.mono {encaps : EncapsState} {ct1 : Bytes} (has : L.HasSecret e encaps ct1) :
    L'.HasSecret e encaps ct1 := by
  obtain ⟨raw, secrets⟩ := has
  exact ⟨raw, ext.secrets secrets⟩

/-- **A state that agrees goes on agreeing**, whoever adds to the ledger. -/
theorem Agrees.mono {st : State K} (agrees : L.Agrees kdf secret st) : L'.Agrees kdf secret st := by
  cases st with
  | keysUnsampled => exact ext.auth agrees
  | keysSampled =>
      obtain ⟨auth, keys, streams⟩ := agrees
      exact ⟨ext.auth auth, ext.keys keys, streams.mono ext⟩
  | headerSent =>
      obtain ⟨auth, keys, gathers, streams⟩ := agrees
      exact ⟨ext.auth auth, ext.keys keys, gathers.mono ext, streams.mono ext⟩
  | ct1Received =>
      obtain ⟨auth, keys, ct1, streams⟩ := agrees
      exact ⟨ext.auth auth, ext.keys keys, ext.value ct1, streams.mono ext⟩
  | ekSentCt1Received =>
      obtain ⟨auth, keys, ct1, gathers⟩ := agrees
      exact ⟨ext.auth auth, ext.keys keys, ext.value ct1, gathers.mono ext⟩
  | noHeaderReceived =>
      obtain ⟨auth, gathers⟩ := agrees
      exact ⟨ext.auth auth, gathers.mono ext⟩
  | headerReceived =>
      obtain ⟨auth, header, gathers⟩ := agrees
      exact ⟨ext.auth auth, header.mono ext, gathers.mono ext⟩
  | ct1Sampled =>
      obtain ⟨auth, header, encaps, streams, gathers⟩ := agrees
      exact ⟨ext.auth auth, header.mono ext, encaps.mono ext, streams.mono ext, gathers.mono ext⟩
  | ekReceivedCt1Sampled =>
      obtain ⟨auth, encaps, ekVector, streams⟩ := agrees
      exact ⟨ext.auth auth, encaps.mono ext, ext.value ekVector, streams.mono ext⟩
  | ct1Acknowledged =>
      obtain ⟨auth, header, encaps, gathers⟩ := agrees
      exact ⟨ext.auth auth, header.mono ext, encaps.mono ext, gathers.mono ext⟩
  | ct2Sampled =>
      obtain ⟨auth, streams⟩ := agrees
      exact ⟨ext.auth auth, streams.mono ext⟩
  | failed => exact agrees

theorem Carries.mono {y : Bool} {msg : Msg} (carries : L.Carries kdf secret y msg) :
    L'.Carries kdf secret y msg := by
  refine ⟨fun {c} data => ?_, carries.stage.trans (ext.stage y)⟩
  obtain ⟨v, type, streamed⟩ := carries.streamed data
  exact ⟨v, type, streamed.mono ext⟩

end Mono

/-! ## Receiving what was honestly sent -/

theorem payload_eq_some {msg : Msg} {e : UInt64} {types : List MsgType} {c : Chunk} :
    msg.payload e types = some c ↔ (msg.epoch = e ∧ msg.ty ∈ types) ∧ msg.data = some c := by
  unfold Msg.payload
  split <;> simp_all

/-- What arrives of a value is a codeword of it. -/
theorem Carries.arrives {y : Bool} {msg : Msg} (carries : L.Carries kdf secret y msg) {e : UInt64}
    {types : List MsgType} {v : Value} (same : ∀ t ∈ types, t.value = some v) {c : Chunk}
    (arrived : msg.payload e types = some c) : L.Streamed kdf secret e v c := by
  obtain ⟨⟨rfl, among⟩, data⟩ := payload_eq_some.1 arrived
  obtain ⟨w, type, streamed⟩ := carries.streamed data
  rw [same _ among] at type
  rwa [Option.some.inj type]

section Gathers

variable {e : UInt64} {v : Value} {dec : Decoder} {c : Chunk}

theorem Gathers.words_addChunk (gathers : L.Gathers kdf secret e v dec)
    (streamed : L.Streamed kdf secret e v c) :
    ∀ d ∈ (dec.addChunk c).1.held, L.Streamed kdf secret e v d := by
  intro d held
  rcases Decoder.mem_addChunk held with before | rfl
  · exact gathers.words d before
  · exact streamed

theorem Gathers.more (gathers : L.Gathers kdf secret e v dec)
    (streamed : L.Streamed kdf secret e v c) (more : (dec.addChunk c).1.message = none) :
    L.Gathers kdf secret e v (dec.addChunk c).1 :=
  ⟨by rw [Decoder.addChunk_size, gathers.size], Decoder.addChunk_invariant gathers.invariant c,
    gathers.words_addChunk streamed, Decoder.message_eq_none.1 more⟩

/-- A new decoder with one codeword of a value of several. -/
theorem Gathers.first (streamed : L.Streamed kdf secret e v c) (several : 32 < v.len) :
    L.Gathers kdf secret e v ((Decoder.new v.len).addChunk c).1 := by
  have new : (Decoder.new v.len).invariant = true := by
    cases v <;> decide
  refine ⟨by rw [Decoder.addChunk_size]; rfl, Decoder.addChunk_invariant new c, fun d held => ?_,
    Decoder.short_first several c⟩
  rcases Decoder.mem_addChunk held with before | rfl
  · simp [Decoder.new] at before
  · exact streamed

theorem Gathers.new (v : Value) (e : UInt64) :
    L.Gathers kdf secret e v (Decoder.new v.len) :=
  ⟨rfl, by cases v <;> decide, fun c held => by simp [Decoder.new] at held,
    Decoder.short_new (by cases v <;> decide)⟩

/-- **What a decoder of honest codewords yields is the value they are of.** -/
theorem Gathers.yields (honest : ikem.Honest) (sized : kdf.Sized)
    (gathers : L.Gathers kdf secret e v dec) (streamed : L.Streamed kdf secret e v c) {m : Bytes}
    (yields : (dec.addChunk c).1.message = some m) : L.value kdf secret e v = some m := by
  obtain ⟨⟨whole, known, -⟩, -⟩ := id streamed
  have words : ∀ d ∈ (dec.addChunk c).1.held, Word whole d := by
    intro d held
    obtain ⟨⟨other, known', word⟩, -⟩ := gathers.words_addChunk streamed d held
    rw [known] at known'
    rwa [Option.some.inj known']
  have length := value_length honest sized known
  have small : whole.length ≤ 65536 * 32 := by
    rw [length]
    cases v <;> decide
  rw [Erasure.message_of_words small (Decoder.addChunk_invariant gathers.invariant c)
    (by rw [Decoder.addChunk_size, gathers.size, length]) words yields]
  exact known

end Gathers

section Completes

variable {e : UInt64} {a : Auth K}

theorem finishEncaps_agrees (honest : ikem.Honest) (auth : L.auth kdf secret e.toNat = some a)
    {encaps : EncapsState} {ct1 ekVector : Bytes} (has : L.HasSecret e encaps ct1)
    (known : L.value kdf secret e .ekVector = some ekVector) :
    L.Agrees kdf secret (finishEncaps kdf ikem e a encaps ct1 ekVector) ∧
      finishEncaps kdf ikem e a encaps ct1 ekVector =
        .ct2Sampled e a (Encoder.new (ikem.encapsulate2 encaps.raw ekVector ++
          a.macCt kdf e ct1 (ikem.encapsulate2 encaps.raw ekVector))) := by
  obtain ⟨raw, secrets⟩ := has
  obtain ⟨kp, r, keys, drawn⟩ := L.encapsulated secrets
  obtain ⟨seed, generated⟩ := L.generated keys
  obtain ⟨kp', keys', rfl⟩ := Option.map_eq_some_iff.1 known
  obtain rfl := Option.some.inj (keys.symm.trans keys')
  have bounded := honest.coefficients_bounded _ _ _ _ _ _ generated drawn
  have completes : encapsulate2 ikem encaps (kp.ekVector ikem) =
      some (ikem.encapsulate2 encaps.raw (kp.ekVector ikem)) := by
    have vector : (kp.ekVector ikem).length = ekVectorLen := honest.ekVector_length _
    unfold encapsulate2
    rw [if_neg (not_not.2 (honest.state_length _ _ _ _ _ drawn)), bounded,
      if_neg (by decide), if_neg (not_not.2 vector)]
  have finished : finishEncaps kdf ikem e a encaps ct1 (kp.ekVector ikem) =
      .ct2Sampled e a (Encoder.new (ikem.encapsulate2 encaps.raw (kp.ekVector ikem) ++
        a.macCt kdf e ct1 (ikem.encapsulate2 encaps.raw (kp.ekVector ikem)))) := by
    rw [finishEncaps, completes]
  refine ⟨?_, finished⟩
  rw [finished]
  refine ⟨auth, _, 0, ?_, Encoder.new_at _⟩
  simp only [Ledger.value, keys, secrets, auth, Option.bind_some, Option.map_some]

theorem acceptHeader_agrees (honest : ikem.Honest) (sized : kdf.Sized)
    (auth : L.auth kdf secret (e.toNat - 1) = some a) {framed : Bytes}
    (known : L.value kdf secret e .header = some framed) :
    L.Agrees kdf secret (acceptHeader kdf e a framed) ∧
      ∃ kp, L.keys e = some kp ∧ acceptHeader kdf e a framed =
        .headerReceived e a (kp.header ikem) (Decoder.new ekVectorLen) := by
  have length : framed.length = headerLen + macLen := value_length honest sized known
  obtain ⟨kp, keys, rest⟩ := Option.bind_eq_some_iff.1 known
  obtain ⟨a', auth', rfl⟩ := Option.map_eq_some_iff.1 rest
  obtain rfl := Option.some.inj (auth.symm.trans auth')
  have front : (kp.header ikem).length = headerLen := honest.header_length _
  have accepted : acceptHeader kdf e a (kp.header ikem ++ a.macHdr kdf e (kp.header ikem)) =
      .headerReceived e a (kp.header ikem) (Decoder.new ekVectorLen) := by
    unfold acceptHeader
    rw [if_neg (not_not.2 length), List.take_left' front, List.drop_left' front]
    exact if_neg (not_not.2 rfl)
  rw [accepted]
  exact ⟨⟨auth, ⟨kp, keys, rfl⟩, Gathers.new .ekVector e⟩, kp, keys, rfl⟩

theorem completeEpoch_agrees (honest : ikem.Honest) (sized : kdf.Sized) (positive : 1 ≤ e.toNat)
    (below : e.toNat + 2 < 2 ^ 64) (auth : L.auth kdf secret (e.toNat - 1) = some a)
    {kp : IncrementalKeyPair} (keys : L.keys e = some kp) {ct1 framed : Bytes}
    (first : L.value kdf secret e .ct1 = some ct1)
    (known : L.value kdf secret e .ct2 = some framed) :
    ∃ next s, next.toNat = e.toNat + 1 ∧ L.secrets e = some s ∧
      L.Agrees kdf secret (completeEpoch kdf ikem e a kp ct1 framed).2 ∧
      completeEpoch kdf ikem e a kp ct1 framed =
        (some ⟨e, kdfOk kdf s.2.2 e⟩, .noHeaderReceived next
          (a.update kdf e (kdf.bytes (kdfOk kdf s.2.2 e))) hdrDecoder) := by
  have length : framed.length = ct2Len + macLen := value_length honest sized known
  obtain ⟨kp', keys', rest⟩ := Option.bind_eq_some_iff.1 known
  obtain rfl := Option.some.inj (keys.symm.trans keys')
  obtain ⟨⟨encaps, ct1', raw⟩, secrets, rest⟩ := Option.bind_eq_some_iff.1 rest
  obtain ⟨after, auth', rfl⟩ := Option.map_eq_some_iff.1 rest
  obtain ⟨s, secrets', same⟩ := Option.map_eq_some_iff.1 first
  obtain rfl := Option.some.inj (secrets.symm.trans secrets')
  obtain rfl : ct1' = ct1 := same
  obtain ⟨kp', r, keys', drawn⟩ := L.encapsulated secrets
  obtain rfl := Option.some.inj (keys.symm.trans keys')
  obtain ⟨seed, generated⟩ := L.generated keys
  -- The peer's authenticator is this one after the epoch's secret.
  obtain ⟨n, epoch⟩ : ∃ n, e.toNat = n + 1 := ⟨e.toNat - 1, by omega⟩
  have number : UInt64.ofNat (n + 1) = e := by rw [← epoch, UInt64.ofNat_toNat]
  have ratcheted : after = a.update kdf e (kdf.bytes (kdfOk kdf raw e)) := by
    rw [epoch, Nat.add_sub_cancel] at auth
    rw [epoch, Ledger.auth, auth, number, secrets] at auth'
    exact (Option.some.inj auth').symm
  obtain ⟨next, climbs, number'⟩ : ∃ next, e.checkedAdd 1 = some next ∧
      next.toNat = e.toNat + 1 := by
    cases climbs : e.checkedAdd 1 with
    | none =>
        rw [UInt64.checkedAdd_eq_none, UInt64.toNat_one] at climbs
        omega
    | some next =>
        rw [UInt64.checkedAdd_eq_some, UInt64.toNat_one] at climbs
        exact ⟨next, rfl, climbs⟩
  have open_ : next ≠ UInt64.maxValue := by
    rintro rfl
    rw [UInt64.toNat_maxValue] at number'
    omega
  have decapsulates : kp.decapsulate ikem ct1'
      (ikem.encapsulate2 encaps.raw (kp.ekVector ikem)) = some raw := by
    unfold IncrementalKeyPair.decapsulate
    rw [if_neg (not_not.2 (honest.ct1_length _ _ _ _ _ drawn)),
      if_neg (not_not.2 (honest.ct2_length _ _))]
    exact honest.decapsulates _ _ _ _ _ _ generated drawn
  have front : (ikem.encapsulate2 encaps.raw (kp.ekVector ikem)).length = ct2Len :=
    honest.ct2_length _ _
  have completed : completeEpoch kdf ikem e a kp ct1'
      (ikem.encapsulate2 encaps.raw (kp.ekVector ikem) ++
        after.macCt kdf e ct1' (ikem.encapsulate2 encaps.raw (kp.ekVector ikem))) =
      (some ⟨e, kdfOk kdf raw e⟩, .noHeaderReceived next
        (a.update kdf e (kdf.bytes (kdfOk kdf raw e))) hdrDecoder) := by
    unfold completeEpoch
    rw [if_neg (not_not.2 length), climbs]
    simp only [if_neg open_, List.take_left' front, List.drop_left' front, decapsulates]
    rw [if_neg (not_not.2 (by rw [ratcheted]))]
  refine ⟨next, _, number', secrets, ?_, completed⟩
  rw [completed]
  refine ⟨?_, Gathers.new .header next⟩
  rw [number', Nat.add_sub_cancel, auth', ratcheted]

end Completes

/-- A vector that is of the epoch's key pair passes the check against its
header. -/
theorem validateEk_agrees (honest : ikem.Honest) {e : UInt64} {header ekVector : Bytes}
    (has : L.HasHeader e header) (known : L.value kdf secret e .ekVector = some ekVector) :
    validateEk ikem header ekVector = true := by
  obtain ⟨kp, keys, rfl⟩ := has
  obtain ⟨kp', keys', rfl⟩ := Option.map_eq_some_iff.1 known
  obtain rfl := Option.some.inj (keys.symm.trans keys')
  obtain ⟨seed, generated⟩ := L.generated keys
  exact honest.keyPair_valid _ _ generated

end Ledger

/-- **A state that agrees, handed an honest message, goes on agreeing**, and so
has not failed.  What it emits is the key of the epoch's secret. -/
theorem Takes.agrees (honest : ikem.Honest) (sized : kdf.Sized) {L : Ledger ikem} {y : Bool}
    {msg : Msg} {st st' : State K} {out : Option (Output K)} (positive : 1 ≤ st.epoch.toNat)
    (below : st.epoch.toNat + 2 < 2 ^ 64) (agrees : L.Agrees kdf secret st)
    (carries : L.Carries kdf secret y msg) (takes : Takes kdf ikem msg st out st') :
    L.Agrees kdf secret st' ∧
      ∀ o, out = some o → ∃ s, L.secrets o.keyEpoch = some s ∧
        o.key = kdfOk kdf s.2.2 o.keyEpoch := by
  have nothing : ∀ o : Output K, none = some o → ∃ s, L.secrets o.keyEpoch = some s ∧
      o.key = kdfOk kdf s.2.2 o.keyEpoch := by simp
  cases takes with
  | ignored => exact ⟨agrees, nothing⟩
  | headerProved arrived =>
      have streamed := carries.arrives (v := .ct1) (by simp [MsgType.value]) arrived
      obtain ⟨auth, keys, -⟩ := agrees
      refine ⟨⟨auth, keys, Ledger.Gathers.first streamed (by decide), _, 0, ?_, Encoder.new_at _⟩,
        nothing⟩
      simp only [Ledger.value, keys, Option.map_some]
  | ct1Chunk arrived more =>
      have streamed := carries.arrives (v := .ct1) (by simp [MsgType.value]) arrived
      obtain ⟨auth, keys, gathers, streams⟩ := agrees
      exact ⟨⟨auth, keys, gathers.more streamed more, streams⟩, nothing⟩
  | ct1Complete arrived yields =>
      have streamed := carries.arrives (v := .ct1) (by simp [MsgType.value]) arrived
      obtain ⟨auth, keys, gathers, streams⟩ := agrees
      exact ⟨⟨auth, keys, gathers.yields honest sized streamed yields, streams⟩, nothing⟩
  | ekProved arrived =>
      have streamed := carries.arrives (v := .ct2) (by simp [MsgType.value]) arrived
      obtain ⟨auth, keys, ct1, -⟩ := agrees
      exact ⟨⟨auth, keys, ct1, Ledger.Gathers.first streamed (by decide)⟩, nothing⟩
  | ct2Chunk arrived more =>
      have streamed := carries.arrives (v := .ct2) (by simp [MsgType.value]) arrived
      obtain ⟨auth, keys, ct1, gathers⟩ := agrees
      exact ⟨⟨auth, keys, ct1, gathers.more streamed more⟩, nothing⟩
  | ct2Complete arrived yields =>
      have streamed := carries.arrives (v := .ct2) (by simp [MsgType.value]) arrived
      obtain ⟨auth, keys, ct1, gathers⟩ := agrees
      have whole := gathers.yields honest sized streamed yields
      simp only [State.epoch] at positive below
      obtain ⟨next, s, -, secrets, left, completed⟩ := Ledger.completeEpoch_agrees honest sized
        positive below auth keys ct1 whole
      refine ⟨left, fun o emitted => ?_⟩
      rw [completed] at emitted
      obtain rfl := Option.some.inj emitted
      exact ⟨s, secrets, rfl⟩
  | headerChunk arrived more =>
      have streamed := carries.arrives (v := .header) (by simp [MsgType.value]) arrived
      obtain ⟨auth, gathers⟩ := agrees
      exact ⟨⟨auth, gathers.more streamed more⟩, nothing⟩
  | headerComplete arrived yields =>
      have streamed := carries.arrives (v := .header) (by simp [MsgType.value]) arrived
      obtain ⟨auth, gathers⟩ := agrees
      have whole := gathers.yields honest sized streamed yields
      exact ⟨(Ledger.acceptHeader_agrees honest sized auth whole).1, nothing⟩
  | ekChunk arrived more =>
      have streamed := carries.arrives (v := .ekVector) (by simp [MsgType.value]) arrived
      obtain ⟨auth, header, encaps, streams, gathers⟩ := agrees
      exact ⟨⟨auth, header, encaps, streams, gathers.more streamed more⟩, nothing⟩
  | ekChunkAcked arrived more =>
      have streamed := carries.arrives (v := .ekVector) (by simp [MsgType.value]) arrived
      obtain ⟨auth, header, encaps, -, gathers⟩ := agrees
      exact ⟨⟨auth, header, encaps, gathers.more streamed more⟩, nothing⟩
  | ekInvalid arrived yields invalid =>
      have streamed := carries.arrives (v := .ekVector) (by simp [MsgType.value]) arrived
      obtain ⟨-, header, -, -, gathers⟩ := agrees
      rw [Ledger.validateEk_agrees honest header (gathers.yields honest sized streamed yields)]
        at invalid
      cases invalid
  | ekCompleteAcked arrived yields =>
      have streamed := carries.arrives (v := .ekVector) (by simp [MsgType.value]) arrived
      obtain ⟨auth, -, encaps, -, gathers⟩ := agrees
      have whole := gathers.yields honest sized streamed yields
      exact ⟨(Ledger.finishEncaps_agrees honest auth encaps whole).1, nothing⟩
  | ekComplete arrived yields =>
      have streamed := carries.arrives (v := .ekVector) (by simp [MsgType.value]) arrived
      obtain ⟨auth, -, encaps, streams, gathers⟩ := agrees
      exact ⟨⟨auth, encaps, gathers.yields honest sized streamed yields, streams⟩, nothing⟩
  | acknowledged =>
      obtain ⟨auth, encaps, whole, -⟩ := agrees
      exact ⟨(Ledger.finishEncaps_agrees honest auth encaps whole).1, nothing⟩
  | lateChunk arrived more =>
      have streamed := carries.arrives (v := .ekVector) (by simp [MsgType.value]) arrived
      obtain ⟨auth, header, encaps, gathers⟩ := agrees
      exact ⟨⟨auth, header, encaps, gathers.more streamed more⟩, nothing⟩
  | lateInvalid arrived yields invalid =>
      have streamed := carries.arrives (v := .ekVector) (by simp [MsgType.value]) arrived
      obtain ⟨-, header, -, gathers⟩ := agrees
      rw [Ledger.validateEk_agrees honest header (gathers.yields honest sized streamed yields)]
        at invalid
      cases invalid
  | lateComplete arrived yields =>
      have streamed := carries.arrives (v := .ekVector) (by simp [MsgType.value]) arrived
      obtain ⟨auth, -, encaps, gathers⟩ := agrees
      have whole := gathers.yields honest sized streamed yields
      exact ⟨(Ledger.finishEncaps_agrees honest auth encaps whole).1, nothing⟩
  | ceiling last =>
      simp only [State.epoch] at below
      omega
  | swapped climbs =>
      obtain ⟨auth, -⟩ := agrees
      refine ⟨?_, nothing⟩
      show L.auth kdf secret _ = _
      rw [climbs, Nat.add_sub_cancel]
      exact auth

end Tacenta.Braid
