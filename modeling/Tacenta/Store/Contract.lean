/-
# Tacenta.Store.Contract -- what a prekey store promises

The promises of `Tacenta.Store.Lifetime`, put together over a store's whole
life, and the one operation that does not compare identities:
`establish_responder` answers for whatever identity it is given, so a message
addressed to one identity under another's prekeys spends them.
-/
import Tacenta.Store.Replay

set_option autoImplicit false

namespace Tacenta.Store

open Tacenta.Session (establishInitiator)
open Tacenta.Wire (absentId)

/-- **The store's contract.**  A created store satisfies its invariant and its
signatures verify; every operation keeps both.  Over a whole run no identifier
is issued twice, and none is the absent marker or `u32::MAX`.  The operations
that sign change nothing under a foreign identity, the rotations nothing at the
end of the identifier space, and a refill only appends keys numbered from the
counter on. -/
theorem store_contract {p : Primitives Secret} (dhHonest : p.dh.Honest)
    (correct : p.xed.Correct p.dh) (honest : p.kem.Honest) (creator : Identity) (count : Nat)
    (rng : Rng) (ops : List Op) :
    let created := (createPrekeys p creator count rng).1
    (created.invariant p = true ∧ created.signaturesVerify p = true) ∧
    (∀ (s : PrekeyStore Secret) (op : Op), s.invariant p = true → s.signaturesVerify p = true →
      (step p s op).invariant p = true ∧ (step p s op).signaturesVerify p = true) ∧
    ((created.ids ++ issuedAlong p created ops).Nodup ∧
      ∀ id ∈ created.ids ++ issuedAlong p created ops,
        id ≠ absentId ∧ id ≠ UInt32.ofNat (2 ^ 32 - 1)) ∧
    (∀ (s : PrekeyStore Secret) (identity : Identity) (n : Nat) (rng : Rng),
      identity.public p ≠ s.identityPublic →
        step p s (.replenish identity n rng) = s ∧ step p s (.rotateSignedPrekey identity rng) = s ∧
          step p s (.rotateKem identity rng) = s) ∧
    (∀ (s : PrekeyStore Secret) (identity : Identity) (rng : Rng),
      s.nextId = UInt32.ofNat (2 ^ 32 - 1) →
        step p s (.rotateSignedPrekey identity rng) = s ∧ step p s (.rotateKem identity rng) = s) ∧
    (∀ (s : PrekeyStore Secret) (identity : Identity) (n : Nat) (rng : Rng),
      Refilled s (step p s (.replenish identity n rng))) := by
  intro created
  have ok : Restorable p created := createPrekeys_restorable dhHonest correct honest creator count rng
  refine ⟨⟨invariant_iff.2 ok.valid, signaturesVerify_iff.2 ok.signed⟩, ?_, ?_, ?_, ?_, ?_⟩
  · intro s op inv verify
    obtain ⟨valid, signed⟩ :=
      step_valid correct (invariant_iff.1 inv) (signaturesVerify_iff.1 verify) op
    exact ⟨invariant_iff.2 valid, signaturesVerify_iff.2 signed⟩
  · exact issuedAlong_nodup correct honest ok ops ok.valid.distinct ok.valid.numbered
      (List.Subset.refl _)
  · intro s identity n rng foreign
    obtain ⟨refill, signed, kem⟩ := foreign_identity s foreign n rng
    simp only [step, refill, signed, kem, and_self]
  · intro s identity rng last
    obtain ⟨signed, kem⟩ := rotate_exhausted (p := p) last identity rng
    simp only [step, signed, kem, and_self]
  · intro s identity n rng
    exact refilled_replenish s identity n rng

/-- A created store, refilled, rotated and reloaded. -/
theorem store_contract_new :
    let p := Sample.primitives
    let created := (createPrekeys p ⟨Vector.replicate 32 7⟩ 3 fun _ => 1).1
    let ops := [Op.replenish ⟨Vector.replicate 32 7⟩ 2 fun _ => 2,
      .rotateKem ⟨Vector.replicate 32 7⟩ fun _ => 3, .reload]
    (created.invariant p = true ∧ created.signaturesVerify p = true) ∧
    (∀ (s : PrekeyStore Secret) (op : Op), s.invariant p = true → s.signaturesVerify p = true →
      (step p s op).invariant p = true ∧ (step p s op).signaturesVerify p = true) ∧
    ((created.ids ++ issuedAlong p created ops).Nodup ∧
      ∀ id ∈ created.ids ++ issuedAlong p created ops,
        id ≠ absentId ∧ id ≠ UInt32.ofNat (2 ^ 32 - 1)) ∧
    (∀ (s : PrekeyStore Secret) (identity : Identity) (n : Nat) (rng : Rng),
      identity.public p ≠ s.identityPublic →
        step p s (.replenish identity n rng) = s ∧ step p s (.rotateSignedPrekey identity rng) = s ∧
          step p s (.rotateKem identity rng) = s) ∧
    (∀ (s : PrekeyStore Secret) (identity : Identity) (rng : Rng),
      s.nextId = UInt32.ofNat (2 ^ 32 - 1) →
        step p s (.rotateSignedPrekey identity rng) = s ∧ step p s (.rotateKem identity rng) = s) ∧
    (∀ (s : PrekeyStore Secret) (identity : Identity) (n : Nat) (rng : Rng),
      Refilled s (step p s (.replenish identity n rng))) :=
  store_contract (Sample.dh_honest id) (Sample.xed_correct id) (Sample.kem_honest id) _ _ _ _

/-! ## The operation that does not compare identities -/

namespace Misaddressed

def owner : Identity := ⟨Vector.replicate 32 7⟩
def other : Identity := ⟨Vector.replicate 32 9⟩

def store : PrekeyStore Secret := (createPrekeys Sample.primitives owner 0 fun _ => 1).1

/-- The store's bundle, signed over by the other identity. -/
def bundle : PublishedBundle :=
  let published := store.publish Sample.primitives
  { published with
    bundle := { published.bundle with
      identityKey := other.public Sample.primitives
      signedPrekeySignature := (other.sign Sample.primitives
        (Handshake.encodeEc published.bundle.signedPrekey) fun _ => 3).1
      kemPrekeySignature := (other.sign Sample.primitives
        (Handshake.encodeKem published.bundle.kemPrekey) fun _ => 4).1 } }

/-- The first message an initiator sends in answer to it. -/
def message : Bytes :=
  match establishInitiator Sample.primitives ⟨Vector.replicate 32 5⟩ bundle fun _ => 6 with
  | (.ok session, rng) =>
      match session.encrypt Sample.primitives [0x68, 0x69] rng with
      | (_, .ok message, _) => message
      | _ => []
  | _ => []

/-- `establish_responder`, given the other identity, accepts the message and
records the handshake in the owner's store. -/
theorem establishResponder_other :
    other.public Sample.primitives ≠ store.identityPublic ∧
      step Sample.primitives store (.establishResponder other message fun _ => 2) ≠ store := by
  refine ⟨by decide +kernel, fun same => ?_⟩
  have recorded : (step Sample.primitives store
      (.establishResponder other message fun _ => 2)).lastResortSeen ≠ store.lastResortSeen := by
    decide +kernel
  exact recorded (congrArg PrekeyStore.lastResortSeen same)

end Misaddressed

end Tacenta.Store
