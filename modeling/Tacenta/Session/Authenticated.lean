/-
# Tacenta.Session.Authenticated -- what the tag covers

The tag is computed over the associated data and the ciphertext with nothing
between them.  Every layer inside is self-delimiting: two `EncodeEC` keys of one
width behind a length, then a header of one width, so the concatenation comes
apart in one way.

* `macInput_inj`: equal MAC inputs have equal identities, headers and ciphertexts;
* `encrypt_decodes`: what a receiver decodes of a message is the Braid message and
  the Triple header the sender's halves returned.
-/
import Tacenta.Session.Invariant
import Tacenta.Wire.Exact

set_option autoImplicit false

namespace Tacenta

variable {K : Type}

namespace Aead

/-- The bytes the MAC is computed over. -/
def macInput (associatedData ciphertext : Bytes) : Bytes := associatedData ++ ciphertext

/-- What decrypts carries the tag of its own MAC input. -/
theorem ofCbc_decrypt {kdf : Kdf K} {cbc : Cbc K} {enc mac : K}
    {iv text associatedData plaintext : Bytes}
    (opened : (ofCbc kdf cbc).decrypt enc mac iv text associatedData = some plaintext) :
    ∃ ciphertext, text = ciphertext ++
        kdf.bytes (kdf.hmac (kdf.bytes mac) (macInput associatedData ciphertext)) ∧
      cbc.decrypt enc iv ciphertext = some plaintext := by
  simp only [ofCbc] at opened
  split at opened
  · simp at opened
  · split at opened
    · simp at opened
    · rename_i tagged
      rw [not_not] at tagged
      refine ⟨_, ?_, opened⟩
      rw [macInput, tagged, List.take_append_drop]

end Aead

namespace Session

open Handshake (encodeEc)
open Wire (Composite DecodedMessage concatAd decodeInitial decodeMessage encodeMessage messageType)

variable {p : Primitives K} {s : Session K}

/-! ## The MAC input comes apart in one way -/

theorem identityAd_inj {a b a' b' : Arr 32}
    (same : Handshake.identityAd a b = Handshake.identityAd a' b') : a = a' ∧ b = b' := by
  obtain ⟨initiator, responder⟩ := List.append_inj same (by simp)
  exact ⟨Handshake.encodeEc_inj initiator, Handshake.encodeEc_inj responder⟩

theorem macInput_inj {a b a' b' : Arr 32} {h h' : Composite} {c c' : Bytes}
    (same : Aead.macInput (concatAd (Handshake.identityAd a b) h) c =
      Aead.macInput (concatAd (Handshake.identityAd a' b') h') c') :
    a = a' ∧ b = b' ∧ h = h' ∧ c = c' := by
  have width : (concatAd (Handshake.identityAd a b) h).length =
      (concatAd (Handshake.identityAd a' b') h').length := by
    simp [concatAd]
  obtain ⟨authenticated, ciphertext⟩ := List.append_inj same width
  obtain ⟨identities, header⟩ := Wire.concatAd_inj authenticated
  obtain ⟨initiator, responder⟩ := identityAd_inj identities
  exact ⟨initiator, responder, header, ciphertext⟩

/-! ## The receiver reads what the sender put in -/

/-- The ratchet message inside what arrived. -/
def ratchetMessageOf (wire : Bytes) : Option Bytes :=
  match messageType wire with
  | some .initial => (decodeInitial wire).toOption.map Wire.DecodedInitial.message
  | _ => some wire

/-- Any Braid message and Triple header come back out of their composite. -/
theorem decodeMessage_compositeOf {h : Triple.Header} (m : Braid.Msg) (ciphertext : Bytes)
    (canonical : Curve.isCanonicalX25519 h.dr.dh = true) :
    ∃ decoded, decodeMessage (encodeMessage (compositeOf h m) ciphertext) = .ok decoded ∧
      msgOf decoded.header = m ∧ tripleHeaderOf decoded.header = h ∧
      decoded.ciphertext = ciphertext :=
  ⟨⟨compositeOf h m, ciphertext⟩, Wire.decodeMessage_encodeMessage _ _ canonical,
    msgOf_compositeOf h m, tripleHeaderOf_compositeOf h m, rfl⟩

theorem isCanonical_of_valid {dh : Dh K} {k : Arr 32} (valid : dh.isValidIdentityKey k = true) :
    Curve.isCanonicalX25519 k = true := by
  rw [Dh.isValidIdentityKey, Bool.and_eq_true] at valid
  exact valid.1

/-- The wrapper of a pending initiator comes off again. -/
theorem ratchetMessageOf_outgoing (valid : Valid p s) (h : Composite) (ciphertext : Bytes) :
    ratchetMessageOf (s.outgoing (encodeMessage h ciphertext)) =
      some (encodeMessage h ciphertext) := by
  cases hpending : s.pendingInitial with
  | none =>
      simp only [outgoing, hpending, ratchetMessageOf, Wire.messageType_encodeMessage]
  | some pending =>
      obtain ⟨length, canonical⟩ := valid.pending pending hpending
      have small : pending.kemCiphertext.length < 2 ^ 32 := by
        rw [length]
        decide
      have unwrapped := Wire.decodeInitial_encodeInitial pending.signedPrekeyId
        pending.oneTimePrekeyId pending.kemPrekeyId (encodeMessage h ciphertext)
        (isCanonical_of_valid valid.ours) canonical small
      simp only [outgoing, hpending, wrapInitial, ratchetMessageOf,
        Wire.messageType_encodeInitial, encodeEc, unwrapped]
      rfl

/-- The ratchet key of a sent header is the session's own. -/
theorem sent_dh {triple : Triple.State K} {epoch : UInt64} {output : Option (Spqr.Output K)}
    {header : Triple.Header} {key : K}
    (sent : s.triple.send p.kdf epoch output = (triple, .ok (header, key))) :
    header.dr.dh = s.triple.sendingPublic := by
  obtain ⟨dr, mkEc, pqN, mkPq, classical, -, rfl, -⟩ := Triple.State.send_ok sent
  obtain ⟨ck, next, -, -, rfl, -⟩ := Ratchet.send_ok classical
  rfl

/-- **What a receiver decodes is what the sender's halves returned.** -/
theorem encrypt_decodes (honest : p.dh.Honest) (valid : Valid p s) {plaintext wire : Bytes}
    {rng : Rng} (sent : (s.encrypt p plaintext rng).2.1 = .ok wire) :
    ∃ agMsg epoch output braid rng' triple header key message decoded,
      s.braid.send p.kdf p.incKem rng = (agMsg, epoch, output, braid, rng') ∧
      s.triple.send p.kdf epoch (output.map spqrOutput) = (triple, .ok (header, key)) ∧
      ratchetMessageOf wire = some message ∧ decodeMessage message = .ok decoded ∧
      msgOf decoded.header = agMsg ∧ tripleHeaderOf decoded.header = header ∧
      decoded.ciphertext =
        (let keys := Ratchet.messageKeys p.kdf key .tacenta
         p.aead.encrypt keys.1 keys.2.1 keys.2.2 plaintext
          (concatAd s.roleAd (compositeOf header agMsg))) := by
  have ends := encrypt_ends p s plaintext rng
  revert sent
  generalize s.encrypt p plaintext rng = result at ends ⊢
  obtain ⟨after, outcome, rng'⟩ := result
  intro sent
  simp only at ends sent
  cases ends with
  | ended | kemFailed | refused => simp at sent
  | @sent agMsg epoch output braid rng' triple header key alive ran survived drew =>
      have canonical : Curve.isCanonicalX25519 header.dr.dh = true := by
        rw [sent_dh drew, ← valid.paired]
        exact honest.publicKey_canonical _
      rw [← Except.ok.inj sent]
      obtain ⟨decoded, read, braidMsg, tripleHeader, ciphertext⟩ :=
        decodeMessage_compositeOf agMsg (let keys := Ratchet.messageKeys p.kdf key .tacenta
          p.aead.encrypt keys.1 keys.2.1 keys.2.2 plaintext
            (concatAd s.identityAd (compositeOf header agMsg))) canonical
      refine ⟨agMsg, epoch, output, braid, rng', triple, header, key, _, decoded, ran, drew,
        ratchetMessageOf_outgoing valid _ _, read, braidMsg, tripleHeader, ?_⟩
      rw [ciphertext, valid.oriented]

/-- **The authenticated bytes determine everything they should.**  What decrypts
carries the MAC of its associated data and ciphertext; equal MAC inputs have equal
identities, headers and ciphertexts; and from any message of a valid session the
receiver decodes the Braid message and the Triple header the sender's halves
returned, whichever message the Braid sent. -/
theorem authenticated_bytes_determine :
    (∀ (K : Type) (kdf : Kdf K) (cbc : Aead.Cbc K) enc mac iv text ad plaintext,
      (Aead.ofCbc kdf cbc).decrypt enc mac iv text ad = some plaintext →
        ∃ ciphertext, text = ciphertext ++
            kdf.bytes (kdf.hmac (kdf.bytes mac) (Aead.macInput ad ciphertext)) ∧
          cbc.decrypt enc iv ciphertext = some plaintext) ∧
    (∀ (initiator responder initiator' responder' : Arr 32) (h h' : Composite) (c c' : Bytes),
      Aead.macInput (concatAd (Handshake.identityAd initiator responder) h) c =
          Aead.macInput (concatAd (Handshake.identityAd initiator' responder') h') c' →
        initiator = initiator' ∧ responder = responder' ∧ h = h' ∧ c = c') ∧
    (∀ (h : Triple.Header) (m : Braid.Msg) (ciphertext : Bytes),
      Curve.isCanonicalX25519 h.dr.dh = true →
        ∃ decoded, decodeMessage (encodeMessage (compositeOf h m) ciphertext) = .ok decoded ∧
          msgOf decoded.header = m ∧ tripleHeaderOf decoded.header = h ∧
          decoded.ciphertext = ciphertext) ∧
    (∀ (K : Type) (p : Primitives K) (s : Session K) plaintext rng wire,
      p.dh.Honest → Valid p s → (s.encrypt p plaintext rng).2.1 = .ok wire →
        ∃ agMsg epoch output braid rng' triple header key message decoded,
          s.braid.send p.kdf p.incKem rng = (agMsg, epoch, output, braid, rng') ∧
          s.triple.send p.kdf epoch (output.map spqrOutput) = (triple, .ok (header, key)) ∧
          ratchetMessageOf wire = some message ∧ decodeMessage message = .ok decoded ∧
          msgOf decoded.header = agMsg ∧ tripleHeaderOf decoded.header = header ∧
          decoded.ciphertext =
            (let keys := Ratchet.messageKeys p.kdf key .tacenta
             p.aead.encrypt keys.1 keys.2.1 keys.2.2 plaintext
              (concatAd s.roleAd (compositeOf header agMsg)))) := by
  refine ⟨?_, ?_, ?_, ?_⟩
  · intro K kdf cbc enc mac iv text ad plaintext opened
    exact Aead.ofCbc_decrypt opened
  · intro initiator responder initiator' responder' h h' c c' same
    exact macInput_inj same
  · intro h m ciphertext canonical
    exact decodeMessage_compositeOf m ciphertext canonical
  · intro K p s plaintext rng wire honest valid sent
    exact encrypt_decodes honest valid sent

end Session

end Tacenta
