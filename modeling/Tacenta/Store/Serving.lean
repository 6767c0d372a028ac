/-
# Tacenta.Store.Serving -- bundles, and what the store still answers for

A store publishes public halves and keeps the private ones.  `Names` says which
keys of a store are behind a bundle it published; a rotation later, with the
one-time keys still held, the store finds the same keys under the bundle's
identifiers (`answers_run`).

* `pqxdh_agreement`: an initiator that answers such a bundle and the store's
  owner end with one secret, one associated data and each other's identity, and
  the owner reads the first plaintext.
-/
import Tacenta.Runs
import Tacenta.Session.Opening
import Tacenta.Store.Replay

set_option autoImplicit false

namespace Tacenta.Store

open Tacenta.Handshake (encodeEc encodeKem initiatorSharedSecret)
open Tacenta.Session (BundleKeys Offers Answers Initiated KemKeySlot respond establishResponder
  establishResponder_cases establishInitiatorFor initiatorSession responderSignedPrekeySecret
  responderKemSlot responderOneTimeKey kemPairOf oneTimeSlot)
open Tacenta.Wire (absentId)

variable {p : Primitives Secret} {s : PrekeyStore Secret} {owner : Identity}

/-! ## Whose keys a store holds -/

/-- A store of `owner`'s whose KEM pairs the KEM generated. -/
structure Owned (p : Primitives Secret) (owner : Identity) (s : PrekeyStore Secret) : Prop where
  identity : s.identityPublic = owner.public p
  kem : ∃ rng, s.kem = (p.kem.generate rng).1
  kemOneTime : ∀ e ∈ s.kemOneTime, ∃ rng, e.2.1 = (p.kem.generate rng).1

theorem createPrekeys_owned (owner : Identity) (count : Nat) (rng : Rng) :
    Owned p owner (createPrekeys p owner count rng).1 := by
  refine ⟨rfl, ⟨_, rfl⟩, ?_⟩
  exact mintKemOneTime_all (motive := fun e => ∃ rng, e.1 = (p.kem.generate rng).1)
    (fun rng => ⟨rng, rfl⟩) _ _ _

theorem Owned.step (owned : Owned p owner s) (ok : Restorable p s) (op : Op) :
    Owned p owner (step p s op) := by
  cases op with
  | publish => exact owned
  | reload => simpa [Store.step, reloaded_eq ok] using owned
  | replenish identity count rng =>
      refine replenish_induction p s identity (motive := Owned p owner) owned
        (fun t next secret h _ => ⟨h.identity, h.kem, h.kemOneTime⟩)
        (fun _ t next rng h _ => ⟨h.identity, h.kem, fun e member => ?_⟩) count rng
      rcases List.mem_append.1 member with old | new
      · exact h.kemOneTime e old
      · rw [List.mem_singleton] at new
        rw [new]
        exact ⟨rng, rfl⟩
  | rotateSignedPrekey identity rng =>
      rw [Store.step]
      rcases rotateSignedPrekey_cases p s identity rng with same | ⟨next, -, -, rotated⟩
      · rw [same]
        exact owned
      · rw [rotated]
        generalize (mintSignedPrekey p identity rng).1 = minted
        exact ⟨owned.identity, owned.kem, owned.kemOneTime⟩
  | rotateKem identity rng =>
      rw [Store.step]
      rcases rotateKem_cases p s identity rng with same | ⟨next, -, -, rotated⟩
      · rw [same]
        exact owned
      · rw [rotated]
        exact ⟨owned.identity, ⟨rng, rfl⟩, owned.kemOneTime⟩
  | establishResponder identity message rng =>
      rw [Store.step]
      obtain ⟨e, rng', refused⟩ | ⟨r, session, plaintext, rng', responded, -, opened⟩ :=
        establishResponder_cases p identity s message rng
      · rw [refused]
        exact owned
      · rw [opened]
        have spends := spend_spends responded
        exact ⟨spends.identityPublic.trans owned.identity, spends.kem ▸ owned.kem,
          fun e member => owned.kemOneTime e (spends.kemOneTime e member)⟩

theorem Owned.run (correct : p.xed.Correct p.dh) (honest : p.kem.Honest)
    (owned : Owned p owner s) (ok : Restorable p s) (ops : List Op) :
    Owned p owner (run p s ops) := by
  induction ops generalizing s with
  | nil => exact owned
  | cons op rest ih => exact ih (owned.step ok op) (restorable_step correct honest ok op)

/-! ## The keys behind a bundle -/

/-- The bundles a store publishes. -/
inductive Published (p : Primitives Secret) (s : PrekeyStore Secret) : PublishedBundle → Prop where
  | single : Published p s (s.publish p)
  | batch {b : PublishedBundle} (member : b ∈ s.publishOneTimeBatch p) : Published p s b
  | multiUse : Published p s (s.publishMultiUse p)

/-- The store names `keys` with a bundle's identifiers. -/
structure Names (s : PrekeyStore Secret) (b : PublishedBundle) (keys : BundleKeys) : Prop where
  signed : b.signedPrekeyId = s.signedPrekeyId ∧ keys.signed = s.signedPrekeySecret
  kem : (b.kemPrekeyId = s.kemId ∧ keys.kem = s.kem) ∨
    ∃ sig, (b.kemPrekeyId, keys.kem, sig) ∈ s.kemOneTime
  oneTime : (b.oneTimePrekeyId = absentId ∧ keys.oneTime = none) ∨
    ∃ secret, keys.oneTime = some secret ∧ (b.oneTimePrekeyId, secret) ∈ s.oneTime

/-- The bundle over one choice of keys. -/
def bundleOf (p : Primitives Secret) (s : PrekeyStore Secret) (oneTime : Option CurveEntry)
    (kem : KemEntry) : PublishedBundle where
  bundle :=
    { identityKey := s.identityPublic
      signedPrekey := p.dh.publicKey s.signedPrekeySecret
      signedPrekeySignature := s.signedPrekeySig
      kemPrekey := MlKem.publicKey kem.2.1
      kemPrekeySignature := kem.2.2
      oneTimePrekey := oneTime.map fun e => p.dh.publicKey e.2 }
  signedPrekeyId := s.signedPrekeyId
  oneTimePrekeyId := (oneTime.map Prod.fst).getD absentId
  kemPrekeyId := kem.1

/-- Every published bundle is over keys of the store. -/
theorem Published.bundleOf {b : PublishedBundle} (published : Published p s b) :
    ∃ (oneTime : Option CurveEntry) (kem : KemEntry), b = bundleOf p s oneTime kem ∧
      (∀ e ∈ oneTime, e ∈ s.oneTime) ∧ (kem = (s.kemId, s.kem, s.kemSig) ∨ kem ∈ s.kemOneTime) := by
  cases published with
  | single =>
      refine ⟨s.oneTime.getLast?, s.kemOneTime.getLast?.getD (s.kemId, s.kem, s.kemSig), ?_,
        fun e last => List.mem_of_getLast? last, ?_⟩
      · unfold PrekeyStore.publish Store.bundleOf
        cases s.oneTime.getLast? <;> cases s.kemOneTime.getLast? <;> rfl
      · cases last : s.kemOneTime.getLast? with
        | none => exact .inl rfl
        | some e => exact .inr (List.mem_of_getLast? last)
  | batch member =>
      obtain ⟨⟨curve, kem⟩, paired, rfl⟩ := List.mem_map.1 member
      obtain ⟨left, right⟩ := List.of_mem_zip paired
      refine ⟨some curve, kem, rfl, ?_, .inr (List.mem_reverse.1 right)⟩
      intro e here
      have same : curve = e := Option.some.inj here
      exact same ▸ List.mem_reverse.1 left
  | multiUse => exact ⟨none, (s.kemId, s.kem, s.kemSig), rfl, by simp, .inl rfl⟩

/-- **A published bundle is an offer of the store's owner**, and the store names
its keys. -/
theorem Published.offers {b : PublishedBundle} (published : Published p s b) (valid : Valid p s)
    (signed : Signed p s) (owned : Owned p owner s) :
    ∃ keys, Offers p owner b keys ∧ Names s b keys := by
  obtain ⟨oneTime, kem, rfl, curve, pair⟩ := published.bundleOf
  refine ⟨⟨s.signedPrekeySecret, oneTime.map Prod.snd, kem.2.1⟩, ⟨owned.identity, rfl, ?_, rfl, ?_,
    ?_, ?_, ?_⟩, ⟨rfl, rfl⟩, ?_, ?_⟩
  · rw [← owned.identity]
    exact signed.signedPrekey
  · rw [← owned.identity]
    rcases pair with rfl | member
    · exact signed.kem
    · exact signed.kemOneTime kem member
  · rcases pair with rfl | member
    · exact owned.kem
    · exact owned.kemOneTime kem member
  · cases oneTime <;> rfl
  · cases oneTime with
    | none => simp [Store.bundleOf]
    | some e =>
        have named : e.1 ∈ s.ids :=
          List.mem_append_left _ (List.mem_append_right _ (List.mem_map_of_mem (curve e rfl)))
        simp [Store.bundleOf, (valid.numbered _ named).1]
  · rcases pair with rfl | member
    · exact .inl ⟨rfl, rfl⟩
    · exact .inr ⟨kem.2.2, member⟩
  · cases oneTime with
    | none => exact .inl ⟨rfl, rfl⟩
    | some e => exact .inr ⟨e.2, rfl, curve e rfl⟩

/-! ## Finding them again -/

theorem responderSignedPrekeySecret_found (valid : Valid p s) {id : UInt32} {secret : Arr 32}
    (named : (id, secret) = (s.signedPrekeyId, s.signedPrekeySecret) ∨
      (s.previousSignedPrekey.map fun r => (r.2.1, r.1)) = some (id, secret)) :
    responderSignedPrekeySecret s id = .ok secret := by
  unfold responderSignedPrekeySecret
  rcases named with current | retired
  · rw [Prod.mk.injEq] at current
    rw [if_pos current.1, current.2]
  · cases previous : s.previousSignedPrekey with
    | none => simp [previous] at retired
    | some r =>
        rw [previous, Option.map_some, Option.some.injEq, Prod.mk.injEq] at retired
        have distinct := valid.distinct
        simp only [PrekeyStore.ids, previous, Option.map_some, Option.toList_some,
          List.append_assoc, List.cons_append, List.nil_append, List.nodup_cons] at distinct
        have other := distinct.1
        simp only [List.mem_cons, not_or] at other
        rw [if_neg (retired.1 ▸ Ne.symm other.2.1)]
        simp [retired]

theorem oneTimeSlot_found {id : UInt32} (held : ∃ e ∈ s.kemOneTime, e.1 = id) :
    ∃ slot, oneTimeSlot s id = .ok (slot, false) ∧
      ∃ e ∈ s.kemOneTime, e.1 = id ∧ kemPairOf s slot = .ok e.2.1 := by
  unfold oneTimeSlot
  cases found : s.kemOneTime.findIdx? fun entry => entry.1 = id with
  | none =>
      obtain ⟨e, member, named⟩ := held
      have absent := List.findIdx?_eq_none_iff.1 found e member
      simp [named] at absent
  | some index =>
      obtain ⟨inside, named, -⟩ := List.findIdx?_eq_some_iff_getElem.1 found
      refine ⟨_, rfl, s.kemOneTime[index], List.getElem_mem inside, by simpa using named, ?_⟩
      simp [kemPairOf, List.getElem?_eq_getElem inside]

/-- A held one-time KEM identifier names no last-resort key. -/
theorem Valid.kemOneTime_apart (valid : Valid p s) {id : UInt32}
    (held : ∃ e ∈ s.kemOneTime, e.1 = id) : id ≠ s.kemId ∧ some id ≠ s.previousKemId := by
  obtain ⟨e, member, named⟩ := held
  have apart := fun a ha => (List.nodup_append.1 valid.distinct).2.2 a ha e.1
    (List.mem_map_of_mem member)
  rw [named] at apart
  constructor
  · rintro rfl
    exact apart s.kemId (by simp) rfl
  · intro retired
    unfold PrekeyStore.previousKemId at retired
    exact apart id (by simp [← retired]) rfl

theorem responderKemSlot_oneTime (valid : Valid p s) {id : UInt32}
    (held : ∃ e ∈ s.kemOneTime, e.1 = id) : responderKemSlot s id = oneTimeSlot s id := by
  obtain ⟨current, retired⟩ := valid.kemOneTime_apart held
  unfold responderKemSlot
  rw [if_neg current]
  cases previous : s.previousKem with
  | none => rfl
  | some r =>
      have other : r.2.1 ≠ id := by
        rintro rfl
        exact retired (by simp [PrekeyStore.previousKemId, previous])
      simp only [if_neg other]

theorem responderKemSlot_lastResort (valid : Valid p s) {id : UInt32} {pair : KeyPair}
    (named : (id, pair) = (s.kemId, s.kem) ∨
      (s.previousKem.map fun r => (r.2.1, r.1)) = some (id, pair))
    (unblocked : id ∉ s.legacyLastResortBlocked) :
    ∃ slot, responderKemSlot s id = .ok (slot, true) ∧ kemPairOf s slot = .ok pair := by
  have unmarked : s.legacyLastResortBlocked.contains id = false := by simpa using unblocked
  unfold responderKemSlot
  rcases named with current | retired
  · rw [Prod.mk.injEq] at current
    rw [if_pos current.1, unmarked]
    exact ⟨.current, rfl, by rw [kemPairOf, current.2]⟩
  · cases previous : s.previousKem with
    | none => simp [previous] at retired
    | some r =>
        rw [previous, Option.map_some, Option.some.injEq, Prod.mk.injEq] at retired
        rw [if_neg (retired.1 ▸ (valid.kemId_ne_previous previous).symm)]
        simp only [retired.1, if_true, unmarked]
        exact ⟨.previous, rfl, by simp [kemPairOf, previous, retired.2]⟩

theorem responderOneTimeKey_found {id : UInt32} (present : id ≠ absentId)
    (held : ∃ e ∈ s.oneTime, e.1 = id) :
    ∃ e ∈ s.oneTime, e.1 = id ∧ responderOneTimeKey s id = .ok (some e.2) := by
  unfold responderOneTimeKey PrekeyStore.peekOneTime
  rw [if_neg present]
  cases found : s.oneTime.find? fun entry => entry.1 = id with
  | none =>
      obtain ⟨e, member, named⟩ := held
      have absent := List.find?_eq_none.1 found e member
      simp [named] at absent
  | some e =>
      exact ⟨e, List.mem_of_find?_eq_some found, by simpa using List.find?_some found, rfl⟩

/-! ## A rotation later -/

def signedSlot (s : PrekeyStore Secret) : UInt32 × Arr 32 := (s.signedPrekeyId, s.signedPrekeySecret)

def previousSignedSlot (s : PrekeyStore Secret) : Option (UInt32 × Arr 32) :=
  s.previousSignedPrekey.map fun r => (r.2.1, r.1)

def kemSlot (s : PrekeyStore Secret) : UInt32 × KeyPair := (s.kemId, s.kem)

def previousKemSlot (s : PrekeyStore Secret) : Option (UInt32 × KeyPair) :=
  s.previousKem.map fun r => (r.2.1, r.1)

/-- Every operation leaves both slots of a key, or turns them. -/
theorem step_turns (ok : Restorable p s) (op : Op) :
    Turns PrekeyStore.signedPrekeyId signedSlot previousSignedSlot s (step p s op) ∧
      Turns PrekeyStore.kemId kemSlot previousKemSlot s (step p s op) := by
  have stays : ∀ {t : PrekeyStore Secret}, t = s → Turns PrekeyStore.signedPrekeyId signedSlot previousSignedSlot s t ∧
      Turns PrekeyStore.kemId kemSlot previousKemSlot s t := by
    rintro _ rfl
    exact ⟨.inl ⟨rfl, rfl⟩, .inl ⟨rfl, rfl⟩⟩
  have fresh : ∀ id ∈ s.ids, s.nextId ≠ id := fun id member same =>
    ok.valid.nextId_not_mem (same ▸ member)
  cases op with
  | publish => exact stays rfl
  | reload => exact stays (reloaded_eq ok)
  | replenish identity count rng =>
      obtain ⟨-, curve, kem, refilled, -⟩ := refilled_replenish (p := p) s identity count rng
      rw [step, refilled]
      exact ⟨.inl ⟨rfl, rfl⟩, .inl ⟨rfl, rfl⟩⟩
  | rotateSignedPrekey identity rng =>
      rw [step]
      rcases rotateSignedPrekey_cases p s identity rng with same | ⟨next, -, -, rotated⟩
      · exact stays same
      · rw [rotated]
        generalize (mintSignedPrekey p identity rng).1 = minted
        refine ⟨.inr ⟨fun same => ?_, rfl⟩, .inl ⟨rfl, rfl⟩⟩
        exact fresh s.signedPrekeyId (by simp [PrekeyStore.ids]) same
  | rotateKem identity rng =>
      rw [step]
      rcases rotateKem_cases p s identity rng with same | ⟨next, -, -, rotated⟩
      · exact stays same
      · rw [rotated]
        generalize (mintKem p identity rng).1 = minted
        refine ⟨.inl ⟨rfl, rfl⟩, .inr ⟨fun same => ?_, rfl⟩⟩
        exact fresh s.kemId (by simp [PrekeyStore.ids]) same
  | establishResponder identity message rng =>
      rw [step]
      obtain ⟨e, rng', refused⟩ | ⟨r, session, plaintext, rng', responded, -, opened⟩ :=
        establishResponder_cases p identity s message rng
      · rw [refused]
        exact stays rfl
      · rw [opened]
        have spends := spend_spends responded
        constructor
        · refine .inl ⟨?_, ?_⟩
          · simp only [signedSlot, spends.signedPrekeyId, spends.signedPrekeySecret]
          · simp only [previousSignedSlot, spends.previousSignedPrekey]
        · refine .inl ⟨?_, ?_⟩
          · simp only [kemSlot, spends.kemId, spends.kem]
          · simp only [previousKemSlot, spends.previousKem]

theorem Mints.run (correct : p.xed.Correct p.dh) (honest : p.kem.Honest) (ok : Restorable p s)
    (ops : List Op) : Mints s (run p s ops) := by
  induction ops generalizing s with
  | nil => exact Mints.refl s
  | cons op rest ih => exact (step_mints ok op).trans (ih (restorable_step correct honest ok op))

/-- The one-time keys behind a bundle of `s` are still in `t`. -/
structure Held (s t : PrekeyStore Secret) (b : PublishedBundle) : Prop where
  oneTime : b.oneTimePrekeyId ≠ absentId → ∃ e ∈ t.oneTime, e.1 = b.oneTimePrekeyId
  kem : b.kemPrekeyId ≠ s.kemId → ∃ e ∈ t.kemOneTime, e.1 = b.kemPrekeyId

/-- **A rotation later, the store answers for its bundle** with the keys that
were behind it, unless the last-resort key it names is blocked. -/
theorem answers_run (correct : p.xed.Correct p.dh) (honest : p.kem.Honest) (ok : Restorable p s)
    {b : PublishedBundle} {keys : BundleKeys} (names : Names s b keys) {ops : List Op}
    (signedOnce : replaced (step p) PrekeyStore.signedPrekeyId s ops ≤ 1)
    (kemOnce : b.kemPrekeyId = s.kemId → replaced (step p) PrekeyStore.kemId s ops ≤ 1)
    (held : Held s (run p s ops) b)
    (unblocked : (run p s ops).isLastResort b.kemPrekeyId = true →
      b.kemPrekeyId ∉ (run p s ops).legacyLastResortBlocked) :
    ∃ slot, Answers (run p s ops) b keys slot ((run p s ops).isLastResort b.kemPrekeyId) := by
  have keeps : ∀ s op, Restorable p s → Restorable p (step p s op) :=
    fun s op h => restorable_step correct honest h op
  have signed := replaced_once keeps (fun s op h => (step_turns h op).1) ok signedOnce
  have kem := fun current =>
    replaced_once keeps (fun s op h => (step_turns h op).2) ok (kemOnce current)
  have minted := Mints.run correct honest ok ops
  have later := restorable_run correct honest ok ops
  have folded : ops.foldl (step p) s = run p s ops := rfl
  rw [folded] at signed kem
  generalize run p s ops = t at *
  have signed' : responderSignedPrekeySecret t b.signedPrekeyId = .ok keys.signed := by
    refine responderSignedPrekeySecret_found later.valid ?_
    rw [names.signed.1, names.signed.2]
    exact signed.imp Eq.symm id
  have oneTime : responderOneTimeKey t b.oneTimePrekeyId = .ok keys.oneTime := by
    rcases names.oneTime with ⟨absent, none_⟩ | ⟨secret, some_, member⟩
    · rw [none_, responderOneTimeKey, if_pos absent]
    · have named : b.oneTimePrekeyId ∈ s.ids :=
        List.mem_append_left _ (List.mem_append_right _ (List.mem_map.2 ⟨_, member, rfl⟩))
      have present := (ok.valid.numbered _ named).1
      obtain ⟨e, there, same, found⟩ := responderOneTimeKey_found present (held.oneTime present)
      have before : (b.oneTimePrekeyId, Key.oneTime secret) ∈ entries s :=
        List.mem_append_left _ (List.mem_append_right _ (List.mem_map.2 ⟨_, member, rfl⟩))
      have after : (b.oneTimePrekeyId, Key.oneTime e.2) ∈ entries t :=
        List.mem_append_left _ (List.mem_append_right _ (List.mem_map.2 ⟨e, there, by rw [same]⟩))
      rw [found, some_, Key.oneTime.inj (key_stable minted ok.valid before after)]
  rcases names.kem with ⟨current, pair⟩ | ⟨sig, member⟩
  · have still : (b.kemPrekeyId, keys.kem) = (t.kemId, t.kem) ∨
        (t.previousKem.map fun r => (r.2.1, r.1)) = some (b.kemPrekeyId, keys.kem) := by
      rw [current, pair]
      exact (kem current).imp Eq.symm id
    have live : t.isLastResort b.kemPrekeyId = true := by
      rw [PrekeyStore.isLastResort, Bool.or_eq_true, decide_eq_true_eq, decide_eq_true_eq]
      rcases still with now | retired
      · exact .inl (congrArg Prod.fst now)
      · refine .inr ?_
        have first := congrArg (Option.map Prod.fst) retired
        rw [Option.map_map] at first
        exact first.symm
    obtain ⟨slot, found, read⟩ := responderKemSlot_lastResort later.valid still (unblocked live)
    exact ⟨slot, signed', by rw [live]; exact found, read, oneTime⟩
  · have named : b.kemPrekeyId ∈ s.ids := List.mem_append_right _ (List.mem_map.2 ⟨_, member, rfl⟩)
    have other : b.kemPrekeyId ≠ s.kemId := (ok.valid.kemOneTime_apart ⟨_, member, rfl⟩).1
    have here := held.kem other
    obtain ⟨current, retired⟩ := later.valid.kemOneTime_apart here
    have dead : t.isLastResort b.kemPrekeyId = false := by
      simp [PrekeyStore.isLastResort, current, retired]
    obtain ⟨slot, found, e, there, same, read⟩ := oneTimeSlot_found here
    have before : (b.kemPrekeyId, Key.kemOneTime keys.kem) ∈ entries s :=
      List.mem_append_right _ (List.mem_map.2 ⟨_, member, rfl⟩)
    have after : (b.kemPrekeyId, Key.kemOneTime e.2.1) ∈ entries t :=
      List.mem_append_right _ (List.mem_map.2 ⟨e, there, by rw [same]⟩)
    refine ⟨slot, signed', ?_, ?_, oneTime⟩
    · rw [dead, responderKemSlot_oneTime later.valid here]
      exact found
    · rw [read, Key.kemOneTime.inj (key_stable minted ok.valid before after)]

/-! ## Agreement -/

/-- The stores of `owner`'s that the operations reach. -/
def StoreOf (p : Primitives Secret) (owner : Identity) (s : PrekeyStore Secret) : Prop :=
  ∃ count rng ops, s = run p (createPrekeys p owner count rng).1 ops

theorem StoreOf.ok (dhHonest : p.dh.Honest) (correct : p.xed.Correct p.dh) (honest : p.kem.Honest)
    (reached : StoreOf p owner s) : Restorable p s ∧ Owned p owner s := by
  obtain ⟨count, rng, ops, rfl⟩ := reached
  have start := createPrekeys_restorable dhHonest correct honest owner count rng
  exact ⟨restorable_run correct honest start ops,
    (createPrekeys_owned owner count rng).run correct honest start ops⟩

/-- Why a handshake under a last-resort key may be refused: the key is blocked,
its record is full, or the handshake's fingerprint is on record. -/
def Refusable (p : Primitives Secret) (s : PrekeyStore Secret) (id : UInt32) (sk : Secret) : Prop :=
  s.isLastResort id = true ∧ (id ∈ s.legacyLastResortBlocked ∨
    maxLastResortSeen ≤ s.lastResortSeenFor id ∨
    ∃ e ∈ s.lastResortSeen, e.2 = lastResortFingerprint p.kdf sk)

theorem responderReplayFingerprint_fresh {id : UInt32} {sk : Secret}
    (free : ¬ Refusable p s id sk) : ∃ fingerprint,
      Session.responderReplayFingerprint p s id sk (s.isLastResort id) = .ok fingerprint := by
  unfold Session.responderReplayFingerprint
  cases live : s.isLastResort id with
  | false => exact ⟨none, rfl⟩
  | true =>
      simp only [Refusable, live, true_and, not_or, not_exists, not_and] at free
      obtain ⟨-, room, fresh⟩ := free
      have new : (s.lastResortSeen.any fun entry =>
          decide (entry.2 = lastResortFingerprint p.kdf sk)) = false := by
        rw [List.any_eq_false]
        intro e member same
        exact fresh e member (of_decide_eq_true same)
      simp only [Bool.not_true, Bool.false_eq_true, if_false, new]
      rw [if_neg (show ¬ s.lastResortSeenFor id ≥ maxLastResortSeen from room)]
      exact ⟨_, rfl⟩

/-- **Both ends of the handshake agree.**  A store publishes a bundle; at most one
rotation of each key later, with the bundle's one-time keys still held, any
initiator accepts the bundle and encrypts, and the store's owner opens the
message: the same plaintext, the same secret, the same associated data, each
session naming the other's identity.  The one way out is a last-resort key that
is blocked, whose record is full, or that has this handshake on record. -/
theorem pqxdh_agreement (dhHonest : p.dh.Honest) (agrees : p.dh.Agrees)
    (correct : p.xed.Correct p.dh) (kemHonest : p.kem.Honest) (incHonest : p.incKem.Honest)
    (inverts : p.aead.Inverts) (reached : StoreOf p owner s) {b : PublishedBundle}
    (published : Published p s b) {ops : List Op}
    (signedOnce : replaced (step p) PrekeyStore.signedPrekeyId s ops ≤ 1)
    (kemOnce : replaced (step p) PrekeyStore.kemId s ops ≤ 1) (held : Held s (run p s ops) b)
    (initiator : Identity) (plaintext : Bytes) (drawn drawn' drawn'' : Rng) :
    ∃ sk session sent message rest rest',
      establishInitiatorFor p initiator b (owner.public p) drawn = (.ok session, rest) ∧
      session.encrypt p plaintext drawn' = (sent, .ok message, rest') ∧
      (∃ ephemeral ratchetPrivate kemCiphertext ss dhOut,
        initiatorSharedSecret p initiator.secret ephemeral b.bundle ss = .ok sk ∧
        session = initiatorSession p initiator b sk ephemeral ratchetPrivate dhOut kemCiphertext) ∧
      session.peerIdentityPublic = owner.public p ∧
      (Refusable p (run p s ops) b.kemPrekeyId sk ∨
        ∃ r store peer rest'', respond p owner (run p s ops) message = .ok r ∧ r.sk = sk ∧
          establishResponder p owner (run p s ops) message drawn'' =
            (store, .ok (peer, plaintext), rest'') ∧
          peer.identityAd = session.identityAd ∧
          peer.peerIdentityPublic = initiator.public p) := by
  obtain ⟨ok, owned⟩ := reached.ok dhHonest correct kemHonest
  obtain ⟨keys, offers, names⟩ := published.offers ok.valid ok.signed owned
  obtain ⟨ephemeral, ratchetPrivate, kemCiphertext, ss, sk, dhOut, rest, initiated, accepted⟩ :=
    Session.establishInitiatorFor_offers offers dhHonest agrees kemHonest initiator drawn
  obtain ⟨sent, agMsg, rest', encrypted⟩ := Session.initiatorSession_encrypt incHonest initiator b
    sk ephemeral ratchetPrivate dhOut kemCiphertext plaintext drawn'
  refine ⟨sk, _, sent, _, rest, rest', accepted, encrypted,
    ⟨ephemeral, ratchetPrivate, kemCiphertext, ss, dhOut, initiated.derived, rfl⟩,
    offers.identity, ?_⟩
  by_cases refusable : Refusable p (run p s ops) b.kemPrekeyId sk
  · exact .inl refusable
  obtain ⟨slot, answers⟩ := answers_run correct kemHonest ok names signedOnce (fun _ => kemOnce) held
    fun live blocked => refusable ⟨live, .inl blocked⟩
  obtain ⟨fingerprint, fresh⟩ := responderReplayFingerprint_fresh refusable
  obtain ⟨r, peer, rest'', responded, opened, facts, ad, theirs, -⟩ :=
    Session.establishResponder_answers dhHonest agrees inverts offers initiated answers fresh agMsg
      plaintext drawn''
  refine .inr ⟨r, _, peer, rest'', responded, facts.1, opened, ?_, theirs⟩
  rw [ad, ← offers.identity]
  rfl

namespace Opened

def host : Identity := ⟨Vector.replicate 32 7⟩
def guest : Identity := ⟨Vector.replicate 32 5⟩

def store : PrekeyStore Secret := (createPrekeys Sample.primitives host 1 fun _ => 1).1

/-- Both keys rotated, and the pools refilled. -/
def later : List Op :=
  [.rotateSignedPrekey host fun _ => 2, .replenish host 1 fun _ => 3, .rotateKem host fun _ => 4]

/-- A bundle of one-time keys, opened after both rotations. -/
theorem pqxdh_agreement_sample : ∃ message r left peer rest,
    respond Sample.primitives host (run Sample.primitives store later) message = .ok r ∧
      establishResponder Sample.primitives host (run Sample.primitives store later) message
        (fun _ => 8) = (left, .ok (peer, [0x68, 0x69]), rest) ∧
      peer.peerIdentityPublic = guest.public Sample.primitives := by
  have reached : StoreOf Sample.primitives host store := ⟨1, fun _ => 1, [], rfl⟩
  have signedOnce : replaced (step Sample.primitives) PrekeyStore.signedPrekeyId store later ≤ 1 := by
    decide +kernel
  have kemOnce : replaced (step Sample.primitives) PrekeyStore.kemId store later ≤ 1 := by
    decide +kernel
  have curve : ((run Sample.primitives store later).oneTime.any fun e =>
      decide (e.1 = (store.publish Sample.primitives).oneTimePrekeyId)) = true := by
    decide +kernel
  have kem : ((run Sample.primitives store later).kemOneTime.any fun e =>
      decide (e.1 = (store.publish Sample.primitives).kemPrekeyId)) = true := by
    decide +kernel
  have held : Held store (run Sample.primitives store later) (store.publish Sample.primitives) :=
    ⟨fun _ => by simpa using curve, fun _ => by simpa using kem⟩
  obtain ⟨sk, session, sent, message, rest, rest', -, -, -, -, refusable | opened⟩ :=
    pqxdh_agreement (Sample.dh_honest id) (Sample.dh_agrees id) (Sample.xed_correct id)
      (Sample.kem_honest id) (Sample.incKem_honest id) Sample.aead_inverts reached .single
      signedOnce kemOnce held guest [0x68, 0x69] (fun _ => 6) (fun _ => 7) fun _ => 8
  · exact absurd refusable.1 (by decide +kernel)
  · obtain ⟨r, left, peer, rest'', responded, -, accepted, -, theirs⟩ := opened
    exact ⟨message, r, left, peer, rest'', responded, accepted, theirs⟩

/-! The last-resort key alone, and one initiator drawing the same values twice. -/

def lastResort : PrekeyStore Secret := (createPrekeys Sample.primitives host 0 fun _ => 1).1

def repeated : Bytes :=
  (Session.firstMessageTo Sample.primitives guest (lastResort.publish Sample.primitives)
    (host.public Sample.primitives) [0x68, 0x69] (fun _ => 6) fun _ => 7).getD []

def afterOne : List Op := [.establishResponder host repeated fun _ => 8]

/-- The handshake is on record the second time, and the store refuses it: its key
is neither blocked nor out of room. -/
theorem repeated_refused :
    StoreOf Sample.primitives host lastResort ∧
    Published Sample.primitives lastResort (lastResort.publish Sample.primitives) ∧
    replaced (step Sample.primitives) PrekeyStore.signedPrekeyId lastResort afterOne ≤ 1 ∧
    replaced (step Sample.primitives) PrekeyStore.kemId lastResort afterOne ≤ 1 ∧
    Held lastResort (run Sample.primitives lastResort afterOne)
      (lastResort.publish Sample.primitives) ∧
    Session.firstMessageTo Sample.primitives guest (lastResort.publish Sample.primitives)
      (host.public Sample.primitives) [0x68, 0x69] (fun _ => 6) (fun _ => 7) = some repeated ∧
    (run Sample.primitives lastResort afterOne).legacyLastResortBlocked = [] ∧
    (run Sample.primitives lastResort afterOne).lastResortSeenFor lastResort.kemId <
      maxLastResortSeen ∧
    ∀ rng, ¬ ∃ left peer rest, establishResponder Sample.primitives host
      (run Sample.primitives lastResort afterOne) repeated rng =
        (left, .ok (peer, [0x68, 0x69]), rest) := by
  have sent : (Session.firstMessageTo Sample.primitives guest
      (lastResort.publish Sample.primitives) (host.public Sample.primitives) [0x68, 0x69]
      (fun _ => 6) fun _ => 7).isSome = true := by decide +kernel
  have unnamed : (lastResort.publish Sample.primitives).oneTimePrekeyId = absentId ∧
      (lastResort.publish Sample.primitives).kemPrekeyId = lastResort.kemId := by decide +kernel
  refine ⟨⟨0, fun _ => 1, [], rfl⟩, .single, by decide +kernel, by decide +kernel,
    ⟨fun present => absurd unnamed.1 present, fun other => absurd unnamed.2 other⟩,
    ?_, by decide +kernel, by decide +kernel, ?_⟩
  · obtain ⟨message, sent⟩ := Option.isSome_iff_exists.1 sent
    rw [repeated, sent, Option.getD_some]
  rintro rng ⟨left, peer, rest, opened⟩
  have refused : (respond Sample.primitives host (run Sample.primitives lastResort afterOne)
      repeated).toOption.isNone = true := by decide +kernel
  unfold establishResponder at opened
  cases h : respond Sample.primitives host (run Sample.primitives lastResort afterOne) repeated with
  | ok r => simp [h, Except.toOption] at refused
  | error e => simp [h] at opened

/-- The same message again, around a rotation of the last-resort key and a reload. -/
def replayed : List Op :=
  [.establishResponder host repeated fun _ => 8, .rotateKem host fun _ => 3, .reload,
    .establishResponder host repeated fun _ => 9]

/-- The first delivery is accepted, and the second one is not. -/
theorem no_replay_sample : ∃ a, acceptedAlong Sample.primitives lastResort replayed = [a] ∧
    a.identity = host ∧ a.message = repeated := by
  have first : (acceptedBy Sample.primitives lastResort
      (.establishResponder host repeated fun _ => 8)).isSome = true := by decide +kernel
  obtain ⟨a, accepted⟩ := Option.isSome_iff_exists.1 first
  obtain ⟨opener, bytes⟩ := acceptedBy_named accepted
  have distinct := (no_replay (p := Sample.primitives) (Sample.dh_honest id)
    (Sample.xed_correct id) (Sample.kem_honest id)
    host 0 (fun _ => 1) replayed).2 host (by simp [replayed, OpensAs])
  change (acceptedAlong Sample.primitives lastResort replayed).Pairwise _ at distinct
  rw [replayed, acceptedAlong_some accepted, acceptedAlong_none rfl, acceptedAlong_none rfl] at *
  generalize step Sample.primitives (step Sample.primitives (step Sample.primitives lastResort _) _)
    _ = later at *
  cases again : acceptedBy Sample.primitives later
      (.establishResponder host repeated fun _ => 9) with
  | none =>
      rw [acceptedAlong_none again]
      exact ⟨a, rfl, opener, bytes⟩
  | some b =>
      rw [acceptedAlong_some again, List.pairwise_cons] at distinct
      exact absurd ((acceptedBy_named again).2.trans bytes.symm) (distinct.1 b List.mem_cons_self)

end Opened

end Tacenta.Store
