/-
# Tacenta.Session.Responder -- what opening a session does to the store

`respond_ok` says what the responder found when it derives a secret, one fact per
step of `respond`.  `establishResponder_cases` then splits the whole call in two:
a refusal, which hands the store back as it was, and a success, which hands back
`spend`.  `Spent` is what `spend` changed and nothing more.
-/
import Tacenta.Sample
import Tacenta.Session.Establish
import Tacenta.Store.Invariant

set_option autoImplicit false

namespace Tacenta.Session

open Tacenta.Handshake (responderSharedSecret)
open Tacenta.Store (Identity PrekeyStore WithinBudget invariant_iff lastResortFingerprint
  maxLastResortSeen)
open Tacenta.Wire (absentId decodeInitial)

variable {K : Type} {p : Primitives K} {identity : Identity} {store : PrekeyStore K}
  {message : Bytes} {r : Responded K}

/-- The steps of a successful `respond`, in order. -/
structure Responds [DecidableEq K] (p : Primitives K) (identity : Identity) (store : PrekeyStore K)
    (message : Bytes) (r : Responded K) (slot : KemKeySlot) (initiatorEphemeral : Arr 32)
    (oneTimeKey : Option (Arr 32)) (ss : K) : Prop where
  decoded : decodeInitial message = .ok r.decoded
  signed : responderSignedPrekeySecret store r.decoded.signedPrekeyId = .ok r.signedPrekeySecret
  kemSlot : responderKemSlot store r.decoded.kemPrekeyId = .ok (slot, r.lastResort)
  curves : responderCurveInputs p r.decoded.identity r.decoded.ephemeral =
    .ok (r.initiatorIdentity, initiatorEphemeral)
  oneTime : responderOneTimeKey store r.decoded.oneTimePrekeyId = .ok oneTimeKey
  decapsulated : responderDecapsulate p store slot r.decoded.kemCiphertext = .ok ss
  secret : responderSharedSecret p identity.secret r.signedPrekeySecret oneTimeKey
    r.initiatorIdentity initiatorEphemeral ss = .ok r.sk
  replay : responderReplayFingerprint p store r.decoded.kemPrekeyId r.sk r.lastResort =
    .ok r.fingerprint

theorem respond_ok [DecidableEq K] (responded : respond p identity store message = .ok r) :
    ∃ slot initiatorEphemeral oneTimeKey ss,
      Responds p identity store message r slot initiatorEphemeral oneTimeKey ss := by
  simp only [respond, bind_eq_ok] at responded
  obtain ⟨decoded, hdecoded, signedPrekeySecret, hsigned, ⟨slot, lastResort⟩, hslot,
    ⟨initiatorIdentity, initiatorEphemeral⟩, hcurves, oneTimeKey, honeTime, ss, hss, sk, hsk,
    fingerprint, hfingerprint, hr⟩ := responded
  simp only [pure, Except.pure, Except.ok.injEq] at hr
  subst hr
  exact ⟨slot, initiatorEphemeral, oneTimeKey, ss, mapError_eq_ok.1 hdecoded, hsigned, hslot,
    hcurves, honeTime, hss, mapError_eq_ok.1 hsk, hfingerprint⟩

/-- A refusal hands the store back; a success hands back `spend`. -/
theorem establishResponder_cases [DecidableEq K] (p : Primitives K) (identity : Identity)
    (store : PrekeyStore K)
    (message : Bytes) (rng : Rng) :
    (∃ e rng', establishResponder p identity store message rng = (store, .error e, rng')) ∨
    (∃ r session plaintext rng', respond p identity store message = .ok r ∧
      (responderSession p identity r).decryptRatchet p r.decoded.message rng =
        (session, .ok plaintext, rng') ∧
      establishResponder p identity store message rng =
        (spend store r, .ok (session, plaintext), rng')) := by
  unfold establishResponder
  cases h : respond p identity store message with
  | error e => exact .inl ⟨e, rng, rfl⟩
  | ok r =>
      simp only
      split
      · rename_i e rng' _
        exact .inl ⟨e, rng', rfl⟩
      · rename_i session plaintext rng' opened
        exact .inr ⟨r, session, plaintext, rng', rfl, opened, rfl⟩

/-! ## What a slot names -/

theorem oneTimeSlot_ok {id : UInt32} {slot : KemKeySlot} {lastResort : Bool}
    (found : oneTimeSlot store id = .ok (slot, lastResort)) :
    lastResort = false ∧ ∃ entry ∈ store.kemOneTime, entry.1 = id := by
  unfold oneTimeSlot at found
  split at found
  · rename_i index here
    simp only [Except.ok.injEq, Prod.mk.injEq] at found
    obtain ⟨_, holds, -⟩ := List.findIdx?_eq_some_iff_getElem.1 here
    exact ⟨found.2.symm, _, List.getElem_mem _, by simpa using holds⟩
  · simp at found

/-- A slot is last-resort exactly when the identifier names one of the two
last-resort keys; otherwise it names a one-time entry. -/
theorem responderKemSlot_ok {id : UInt32} {slot : KemKeySlot} {lastResort : Bool}
    (found : responderKemSlot store id = .ok (slot, lastResort)) :
    lastResort = store.isLastResort id ∧
      (lastResort = false → ∃ entry ∈ store.kemOneTime, entry.1 = id) := by
  unfold responderKemSlot at found
  by_cases current : id = store.kemId
  · simp only [current, if_true] at found
    split at found
    · simp at found
    · simp only [Except.ok.injEq, Prod.mk.injEq] at found
      simp [← found.2, PrekeyStore.isLastResort, current]
  · rw [if_neg current] at found
    cases previous : store.previousKem with
    | none =>
        simp only [previous] at found
        obtain ⟨rfl, entry⟩ := oneTimeSlot_ok found
        simp [PrekeyStore.isLastResort, PrekeyStore.previousKemId, current, previous, entry]
    | some retired =>
        obtain ⟨pair, previousId, sig⟩ := retired
        simp only [previous] at found
        by_cases named : previousId = id
        · simp only [named, if_true] at found
          split at found
          · simp at found
          · simp only [Except.ok.injEq, Prod.mk.injEq] at found
            simp [← found.2, PrekeyStore.isLastResort, PrekeyStore.previousKemId, previous, named]
        · rw [if_neg named] at found
          obtain ⟨rfl, entry⟩ := oneTimeSlot_ok found
          have other : id ≠ previousId := fun h => named h.symm
          simp [PrekeyStore.isLastResort, PrekeyStore.previousKemId, current, previous, other, entry]

/-- A last-resort slot is not blocked. -/
theorem responderKemSlot_open {id : UInt32} {slot : KemKeySlot}
    (found : responderKemSlot store id = .ok (slot, true)) :
    id ∉ store.legacyLastResortBlocked := by
  intro blocked
  have marked : store.legacyLastResortBlocked.contains id = true := by simpa using blocked
  unfold responderKemSlot at found
  simp only [marked, if_true] at found
  split at found
  · simp at found
  split at found
  · split at found
    · simp at found
    · simpa using (oneTimeSlot_ok found).1
  · simpa using (oneTimeSlot_ok found).1

theorem responderOneTimeKey_ok {id : UInt32} {key : Option (Arr 32)}
    (found : responderOneTimeKey store id = .ok key) (present : id ≠ absentId) :
    ∃ entry ∈ store.oneTime, entry.1 = id := by
  unfold responderOneTimeKey PrekeyStore.peekOneTime at found
  rw [if_neg present] at found
  cases h : store.oneTime.find? fun entry => entry.1 = id with
  | none => simp [h] at found
  | some entry => exact ⟨entry, List.mem_of_find?_eq_some h, by simpa using List.find?_some h⟩

theorem responderReplayFingerprint_ok [DecidableEq K] {kemId : UInt32} {sk : K} {lastResort : Bool}
    {fingerprint : Option K}
    (found : responderReplayFingerprint p store kemId sk lastResort = .ok fingerprint) :
    (lastResort = false ∧ fingerprint = none) ∨
    (lastResort = true ∧ fingerprint = some (lastResortFingerprint p.kdf sk) ∧
      (∀ entry ∈ store.lastResortSeen, entry.2 ≠ lastResortFingerprint p.kdf sk) ∧
      store.lastResortSeenFor kemId < maxLastResortSeen) := by
  unfold responderReplayFingerprint at found
  cases lastResort with
  | false => simpa using found.symm
  | true =>
      simp only [Bool.not_true, Bool.false_eq_true, if_false] at found
      split at found
      · simp at found
      · rename_i fresh
        split at found
        · simp at found
        · rename_i room
          simp only [Except.ok.injEq] at found
          refine .inr ⟨rfl, found.symm, fun entry member repeated => fresh ?_, by omega⟩
          simpa using ⟨entry.1, repeated ▸ member⟩

/-! ## What `spend` changes -/

/-- Exactly one entry named `id` is gone, and every other is still there. -/
def Removed {α : Type} (id : UInt32) (before after : List (UInt32 × α)) : Prop :=
  ∃ entry, entry.1 = id ∧ before.Perm (entry :: after)

theorem swapRemove_removed {α : Type} {id : UInt32} {l : List (UInt32 × α)}
    (present : ∃ entry ∈ l, entry.1 = id) :
    Removed id l (swapRemove (fun entry => decide (entry.1 = id)) l) := by
  have found : l.any (fun entry => decide (entry.1 = id)) = true := by simpa using present
  obtain ⟨before, entry, after, rfl, named, -, perm⟩ := swapRemove_perm found
  exact ⟨entry, by simpa using named, List.perm_middle.trans (perm.symm.cons entry)⟩

/-- What a successful `establish_responder` changed in the store. -/
structure Spent (kdf : Kdf K) (store : PrekeyStore K) (r : Responded K) (after : PrekeyStore K) :
    Prop where
  kemOneTime : if r.lastResort then after.kemOneTime = store.kemOneTime
    else Removed r.decoded.kemPrekeyId store.kemOneTime after.kemOneTime
  oneTime : if r.decoded.oneTimePrekeyId = absentId then after.oneTime = store.oneTime
    else Removed r.decoded.oneTimePrekeyId store.oneTime after.oneTime
  lastResortSeen : after.lastResortSeen = if r.lastResort then
      store.lastResortSeen ++ [(r.decoded.kemPrekeyId, lastResortFingerprint kdf r.sk)]
    else store.lastResortSeen
  others : { after with
      kemOneTime := store.kemOneTime
      oneTime := store.oneTime
      lastResortSeen := store.lastResortSeen } = store

/-- **`spend` changes what it must and nothing else.** -/
theorem spend_spent [DecidableEq K] (responded : respond p identity store message = .ok r) :
    Spent p.kdf store r (spend store r) := by
  obtain ⟨slot, ephemeral, oneTimeKey, ss, steps⟩ := respond_ok responded
  obtain ⟨-, kemEntry⟩ := responderKemSlot_ok steps.kemSlot
  have curveEntry := responderOneTimeKey_ok steps.oneTime
  have fingerprint := responderReplayFingerprint_ok steps.replay
  cases lastResort : r.lastResort with
  | true =>
      obtain ⟨h, -⟩ | ⟨-, fp, -, -⟩ := fingerprint
      · simp [lastResort] at h
      by_cases absent : r.decoded.oneTimePrekeyId = absentId
      · constructor <;> simp [spend, lastResort, absent, fp]
      · have removed := swapRemove_removed (curveEntry absent)
        constructor <;> simp [spend, lastResort, absent, fp, PrekeyStore.takeOneTime, removed]
  | false =>
      obtain ⟨-, fp⟩ | ⟨h, -⟩ := fingerprint
      · have kemRemoved := swapRemove_removed (kemEntry lastResort)
        by_cases absent : r.decoded.oneTimePrekeyId = absentId
        · constructor <;>
            simp [spend, lastResort, absent, fp, PrekeyStore.takeOneTimeKem, kemRemoved]
        · have removed := swapRemove_removed (curveEntry absent)
          constructor <;> simp [spend, lastResort, absent, fp, PrekeyStore.takeOneTimeKem,
            PrekeyStore.takeOneTime, kemRemoved, removed]
      · simp [lastResort] at h

/-! ## The record's budget -/

theorem withinBudget_spend [DecidableEq K] (within : WithinBudget store)
    (responded : respond p identity store message = .ok r) : WithinBudget (spend store r) := by
  intro id
  obtain ⟨slot, ephemeral, oneTimeKey, ss, steps⟩ := respond_ok responded
  unfold PrekeyStore.lastResortSeenFor
  rw [(spend_spent responded).lastResortSeen]
  have before := within id
  unfold PrekeyStore.lastResortSeenFor at before
  obtain ⟨last, -⟩ | ⟨last, -, -, room⟩ := responderReplayFingerprint_ok steps.replay
  · simpa [last] using before
  · rw [last, if_pos rfl, List.countP_append]
    by_cases named : r.decoded.kemPrekeyId = id
    · unfold PrekeyStore.lastResortSeenFor at room
      rw [named] at room
      have : List.countP (fun entry : UInt32 × K => decide (entry.1 = id))
          [(r.decoded.kemPrekeyId, lastResortFingerprint p.kdf r.sk)] ≤ 1 := List.countP_le_length
      omega
    · simpa [named] using before

/-- **What `establish_responder` does to the store.**  A refusal changes no field.
A success removes the one-time KEM entry the message names unless the key is a
last-resort one, removes the one-time curve entry it names unless it names none,
records the handshake's fingerprint when the key is a last-resort one, and
changes nothing else.  In both cases no key's record exceeds its budget. -/
theorem establishResponder_store [DecidableEq K] (identity : Identity) (message : Bytes) (rng : Rng)
    (inv : store.invariant p = true) :
    WithinBudget (establishResponder p identity store message rng).1 ∧
    match establishResponder p identity store message rng with
    | (after, .error _, _) => after = store
    | (after, .ok _, _) => ∃ r, respond p identity store message = .ok r ∧
        decodeInitial message = .ok r.decoded ∧
        r.lastResort = store.isLastResort r.decoded.kemPrekeyId ∧
        Spent p.kdf store r after := by
  have within := (invariant_iff.1 inv).budget
  obtain ⟨e, rng', refused⟩ | ⟨r, session, plaintext, rng', responded, -, opened⟩ :=
    establishResponder_cases p identity store message rng
  · rw [refused]
    exact ⟨within, rfl⟩
  · rw [opened]
    obtain ⟨slot, ephemeral, oneTimeKey, ss, steps⟩ := respond_ok responded
    exact ⟨withinBudget_spend within responded, r, responded, steps.decoded,
      (responderKemSlot_ok steps.kemSlot).1, spend_spent responded⟩

namespace Depleted

def host : Identity := ⟨Vector.replicate 32 7⟩

def pools : Store.PrekeyStore Secret := (Store.createPrekeys Sample.primitives host 3 fun _ => 1).1

/-- An initiator's first message under the bundle of one-time keys. -/
def opening : Bytes :=
  ((establishInitiator Sample.primitives ⟨Vector.replicate 32 5⟩ (pools.publish Sample.primitives)
    fun _ => 6).1.toOption.bind fun s =>
      (s.encrypt Sample.primitives [0x68] fun _ => 2).2.1.toOption).getD []

theorem opening_opens : (establishResponder Sample.primitives host pools opening
      fun _ => 8).2.1.toOption.isSome = true ∧
    (establishResponder Sample.primitives host pools opening fun _ => 8).1.oneTime.length = 2 := by
  decide +kernel

/-- A new store opens the message, and has two of its three one-time keys left. -/
theorem establishResponder_store_new : ∃ after session plaintext rng r,
    establishResponder Sample.primitives host pools opening (fun _ => 8) =
      (after, .ok (session, plaintext), rng) ∧
    WithinBudget after ∧ respond Sample.primitives host pools opening = .ok r ∧
    Spent Sample.kdf pools r after ∧ after.oneTime.length = 2 := by
  obtain ⟨opens, left⟩ := opening_opens
  have answers := establishResponder_store (p := Sample.primitives) host opening (fun _ => 8)
    (invariant_iff.2 (Store.createPrekeys_valid (Sample.dh_honest id) host 3 fun _ => 1))
  rw [show (Store.createPrekeys Sample.primitives host 3 fun _ => 1).1 = pools from rfl] at answers
  cases ran : establishResponder Sample.primitives host pools opening fun _ => 8 with
  | mk after rest =>
      obtain ⟨outcome, rng⟩ := rest
      rw [ran] at opens left answers
      cases outcome with
      | error e => cases opens
      | ok opened =>
          obtain ⟨within, r, responded, -, -, spent⟩ := answers
          exact ⟨after, opened.1, opened.2, rng, r, rfl, within, responded, spent, left⟩

end Depleted

end Tacenta.Session
