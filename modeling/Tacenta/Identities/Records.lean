/-
# Tacenta.Identities.Records -- records, and establishing under an expectation

`sessions/identity.rs`, the records a party keeps of its contacts: how a key
stands against one (`standing`), whose it is across all of them (`lookup`), and
the initiator's establishment under what it expects (`establishInitiator`).

The expectation reads the records a third time, after the bundle checks the leaf
makes first, repeated here.  `expectationRefusal_none` says what it admits;
`expectation_agrees` that this is what a lookup says of the session's peer, and
that nothing else about the leaf's answer changes.
-/
import Tacenta.Identities.Digest
import Tacenta.Session.Establish

set_option autoImplicit false

namespace Tacenta.Identities

open Tacenta.Session (checkBundle establishInitiatorFor)
open Tacenta.Store (Identity PublishedBundle)
open Tacenta.Wire (absentId)

variable {K : Type}

/-! ## Records -/

/-- The keys accepted for a contact, and those no longer accepted. -/
structure Record where
  current : List (Arr 32)
  retired : List (Arr 32)
  deriving DecidableEq

def anyNonCanonical (keys : List (Arr 32)) : Bool :=
  keys.foldl (fun found key => if !Curve.isCanonicalX25519 key then true else found) false

def containsKey (keys : List (Arr 32)) (key : Arr 32) : Bool :=
  keys.foldl (fun found member => if member = key then true else found) false

def Record.isEmpty (record : Record) : Bool := record.current.isEmpty && record.retired.isEmpty

def Record.isMalformed (record : Record) : Bool :=
  anyNonCanonical record.current || anyNonCanonical record.retired

inductive KeyClass where
  | retired
  | same
  | new
  deriving DecidableEq, Repr

inductive ClassifyError where
  | key (refusal : KeyRefusal)
  | malformedRecord
  deriving DecidableEq, Repr

/-- The classification of a key that passed the identity-key rule. -/
inductive Standing where
  | of (keyClass : KeyClass)
  | malformed
  deriving DecidableEq, Repr

def standing (key : Arr 32) (record : Record) : Standing :=
  if record.isMalformed then .malformed
  else if containsKey record.retired key then .of .retired
  else if containsKey record.current key then .of .same
  else .of .new

/-- Classify a presented key against one record. -/
def classify (dh : Dh K) (key : Arr 32) (record : Record) : Except ClassifyError KeyClass :=
  match identityKeyRefusal dh key with
  | some refusal => .error (.key refusal)
  | none =>
      match standing key record with
      | .of keyClass => .ok keyClass
      | .malformed => .error .malformedRecord

inductive Attribution where
  | contact (index : Nat)
  | ambiguous
  | retiredKey
  | unattributed
  deriving DecidableEq, Repr

/-- What a lookup found, records by their position. -/
structure Lookup where
  attribution : Attribution
  sameFor : List Nat
  retiredFor : List Nat
  malformed : List Nat
  deriving DecidableEq, Repr

/-- The loop of `lookup` from position `i`: the same, the retired and the malformed. -/
def lookupFrom (key : Arr 32) : Nat → List Record → List Nat × List Nat × List Nat
  | _, [] => ([], [], [])
  | i, record :: rest =>
      let (sameFor, retiredFor, malformed) := lookupFrom key (i + 1) rest
      match standing key record with
      | .of .same => (i :: sameFor, retiredFor, malformed)
      | .of .retired => (sameFor, i :: retiredFor, malformed)
      | .of .new => (sameFor, retiredFor, malformed)
      | .malformed => (sameFor, retiredFor, i :: malformed)

def attributionOf (sameFor retiredFor : List Nat) : Attribution :=
  match sameFor with
  | [index] => .contact index
  | _ :: _ :: _ => .ambiguous
  | [] => if !retiredFor.isEmpty then .retiredKey else .unattributed

/-- Look a key up in all of a party's records. -/
def lookup (dh : Dh K) (key : Arr 32) (records : List Record) : Except KeyRefusal Lookup :=
  match identityKeyRefusal dh key with
  | some refusal => .error refusal
  | none =>
      let (sameFor, retiredFor, malformed) := lookupFrom key 0 records
      .ok { attribution := attributionOf sameFor retiredFor, sameFor := sameFor
            retiredFor := retiredFor, malformed := malformed }

/-! ## Expectations -/

/-- What the initiator expects of the bundle's identity key. -/
inductive Expectation where
  | known (record : Record)
  | firstContact (records : List Record)
  deriving DecidableEq

def Expectation.isMalformed : Expectation → Bool
  | .known record => record.isEmpty || record.isMalformed
  | .firstContact records =>
      records.foldl (fun found record => if record.isMalformed then true else found) false

inductive InitiatorError where
  | malformedRecord
  | unexpectedIdentity
  | retiredIdentity
  | establish (e : Session.Error)
  deriving DecidableEq, Repr

/-- One record of the first-contact scan: whether the key is any record's, and
whether it is retired in any. -/
def firstContactPass (key : Arr 32) (flags : Bool × Bool) (record : Record) : Bool × Bool :=
  match standing key record with
  | .of .same => (true, flags.2)
  | .of .retired => (flags.1, true)
  | .of .new => flags
  | .malformed => flags

/-- The bundle's identity key against the expectation, the identity-key rule first. -/
def expectationRefusal (dh : Dh K) (key : Arr 32) (expectation : Expectation) :
    Option InitiatorError :=
  match identityKeyRefusal dh key with
  | some .notCanonical => some (.establish .badEncoding)
  | some .invalidIdentityKey => some (.establish (.handshake .invalidIdentityKey))
  | none =>
      match expectation with
      | .known record =>
          match standing key record with
          | .of .same => none
          | .of .retired => some .retiredIdentity
          | .of .new => some .unexpectedIdentity
          | .malformed => some .malformedRecord
      | .firstContact records =>
          let (same, retired) := records.foldl (firstContactPass key) (false, false)
          if same then some .unexpectedIdentity
          else if retired then some .retiredIdentity
          else none

/-- Establish a session as the initiator, under an expectation. -/
def establishInitiator (p : Primitives K) (ourIdentity : Identity) (theirBundle : PublishedBundle)
    (expectation : Expectation) (rng : Rng) : Except InitiatorError (Session K) × Rng :=
  if expectation.isMalformed then (.error .malformedRecord, rng)
  else
    let bundle := theirBundle.bundle
    let oneTimeCanonical := bundle.oneTimePrekey.all Curve.isCanonicalX25519
    if bundle.oneTimePrekey.isSome ≠ decide (theirBundle.oneTimePrekeyId ≠ absentId) then
      (.error (.establish .inconsistentBundle), rng)
    else if !Curve.isCanonicalX25519 bundle.identityKey ||
        !Curve.isCanonicalX25519 bundle.signedPrekey || !oneTimeCanonical then
      (.error (.establish .badEncoding), rng)
    else
      match expectationRefusal p.dh bundle.identityKey expectation with
      | some refusal => (.error refusal, rng)
      | none =>
          match establishInitiatorFor p ourIdentity theirBundle bundle.identityKey rng with
          | (.ok session, rng) => (.ok session, rng)
          | (.error e, rng) => (.error (.establish e), rng)

/-! ## The scans -/

/-- A flag set along a list is set if it was, or if anything sets it. -/
theorem foldl_flag {α : Type} (sets : α → Bool) (l : List α) (found : Bool) :
    l.foldl (fun found a => if sets a then true else found) found = (found || l.any sets) := by
  induction l generalizing found with
  | nil => simp
  | cons a rest ih =>
      rw [List.foldl_cons, ih, List.any_cons]
      cases sets a with
      | true => simp
      | false => simp

theorem containsKey_iff {keys : List (Arr 32)} {key : Arr 32} :
    containsKey keys key = true ↔ key ∈ keys := by
  have scan := foldl_flag (fun member => decide (member = key)) keys false
  simp only [decide_eq_true_eq] at scan
  rw [containsKey, scan, Bool.false_or, List.any_eq_true]
  simp

/-- A key against a record that is not malformed. -/
theorem standing_eq {key : Arr 32} {record : Record} (wellFormed : record.isMalformed = false) :
    standing key record =
      if key ∈ record.retired then .of .retired
      else if key ∈ record.current then .of .same else .of .new := by
  simp only [standing, wellFormed, Bool.false_eq_true, if_false, containsKey_iff]

theorem firstContact_flags (key : Arr 32) (records : List Record) (flags : Bool × Bool) :
    records.foldl (firstContactPass key) flags =
      (flags.1 || records.any fun record => decide (standing key record = .of .same),
        flags.2 || records.any fun record => decide (standing key record = .of .retired)) := by
  induction records generalizing flags with
  | nil => simp
  | cons record rest ih =>
      rw [List.foldl_cons, ih, List.any_cons, List.any_cons, firstContactPass]
      cases here : standing key record with
      | malformed => simp
      | of keyClass => cases keyClass <;> simp

/-- A key no record knows is looked up as no one's. -/
theorem lookupFrom_new {key : Arr 32} {records : List Record}
    (unknown : ∀ record ∈ records, standing key record = .of .new) (i : Nat) :
    lookupFrom key i records = ([], [], []) := by
  induction records generalizing i with
  | nil => rfl
  | cons record rest ih =>
      rw [lookupFrom, ih fun record member => unknown record (List.mem_cons_of_mem _ member),
        unknown record List.mem_cons_self]

/-! ## What an expectation admits -/

/-- The key is current and not retired in the record known, or no record's at all. -/
def Expectation.Admits (key : Arr 32) : Expectation → Prop
  | .known record => key ∈ record.current ∧ key ∉ record.retired
  | .firstContact records => ∀ record ∈ records, key ∉ record.current ∧ key ∉ record.retired

theorem firstContact_wellFormed {records : List Record}
    (wellFormed : (Expectation.firstContact records).isMalformed = false) :
    ∀ record ∈ records, record.isMalformed = false := by
  rw [Expectation.isMalformed, foldl_flag, Bool.false_or, List.any_eq_false] at wellFormed
  intro record member
  exact Bool.eq_false_iff.2 (wellFormed record member)

/-- A key every record has as new is in none of them. -/
theorem standing_new_iff {key : Arr 32} {record : Record}
    (wellFormed : record.isMalformed = false) :
    standing key record = .of .new ↔ key ∉ record.current ∧ key ∉ record.retired := by
  rw [standing_eq wellFormed]
  by_cases retired : key ∈ record.retired
  · simp [retired]
  · by_cases current : key ∈ record.current
    · simp [retired, current]
    · simp [retired, current]

theorem firstContact_admits {key : Arr 32} {records : List Record}
    (wellFormed : ∀ record ∈ records, record.isMalformed = false) :
    (Expectation.firstContact records).Admits key ↔
      ∀ record ∈ records, standing key record = .of .new := by
  constructor
  · intro admits record member
    exact (standing_new_iff (wellFormed record member)).2 (admits record member)
  · intro unknown record member
    exact (standing_new_iff (wellFormed record member)).1 (unknown record member)

/-- No record has the key as its own or as retired: every record has it as new. -/
theorem firstContact_none {key : Arr 32} {records : List Record}
    (wellFormed : ∀ record ∈ records, record.isMalformed = false) :
    (¬ (records.any fun record => decide (standing key record = .of .same)) = true ∧
        ¬ (records.any fun record => decide (standing key record = .of .retired)) = true) ↔
      ∀ record ∈ records, standing key record = .of .new := by
  simp only [List.any_eq_true, decide_eq_true_eq, not_exists, not_and]
  constructor
  · rintro ⟨notSame, notRetired⟩ record member
    cases here : standing key record with
    | malformed =>
        rw [standing_eq (wellFormed record member)] at here
        split at here
        · simp at here
        · split at here <;> simp at here
    | of keyClass =>
        cases keyClass with
        | retired => exact absurd here (notRetired record member)
        | same => exact absurd here (notSame record member)
        | new => rfl
  · intro unknown
    constructor
    · intro record member same
      simp [unknown record member] at same
    · intro record member retired
      simp [unknown record member] at retired

/-- **What passes**: an identity key the expectation admits. -/
theorem expectationRefusal_none {dh : Dh K} {key : Arr 32} {expectation : Expectation}
    (wellFormed : expectation.isMalformed = false) :
    expectationRefusal dh key expectation = none ↔
      identityKeyRefusal dh key = none ∧ expectation.Admits key := by
  unfold expectationRefusal
  cases rule : identityKeyRefusal dh key with
  | some refusal => cases refusal <;> simp
  | none =>
      cases expectation with
      | known record =>
          rw [Expectation.isMalformed, Bool.or_eq_false_iff] at wellFormed
          simp only [standing_eq wellFormed.2, Expectation.Admits]
          by_cases retired : key ∈ record.retired
          · simp [retired]
          · by_cases current : key ∈ record.current
            · simp [retired, current]
            · simp [retired, current]
      | firstContact records =>
          have each := firstContact_wellFormed wellFormed
          rw [firstContact_admits each]
          simp only [firstContact_flags, Bool.false_or, true_and]
          rw [← firstContact_none each]
          split
          · rename_i known
            simp [known]
          · rename_i unknown
            split
            · rename_i retired
              simp [retired]
            · rename_i kept
              simp [unknown, kept]

/-! ## Establishing -/

/-- The checks of a bundle that both layers make, in their order. -/
def bundleFault (p : Primitives K) (theirBundle : PublishedBundle) : Option Session.Error :=
  let bundle := theirBundle.bundle
  let oneTimeCanonical := bundle.oneTimePrekey.all Curve.isCanonicalX25519
  if bundle.oneTimePrekey.isSome ≠ decide (theirBundle.oneTimePrekeyId ≠ absentId) then
    some .inconsistentBundle
  else if !Curve.isCanonicalX25519 bundle.identityKey ||
      !Curve.isCanonicalX25519 bundle.signedPrekey || !oneTimeCanonical then some .badEncoding
  else if !p.dh.isValidIdentityKey bundle.identityKey then some (.handshake .invalidIdentityKey)
  else none

section Establishing

variable {p : Primitives K} {ourIdentity : Identity} {theirBundle : PublishedBundle} {rng : Rng}

/-- A bundle without fault. -/
theorem bundleFault_none :
    bundleFault p theirBundle = none ↔
      theirBundle.bundle.oneTimePrekey.isSome = decide (theirBundle.oneTimePrekeyId ≠ absentId) ∧
      Curve.isCanonicalX25519 theirBundle.bundle.identityKey = true ∧
      Curve.isCanonicalX25519 theirBundle.bundle.signedPrekey = true ∧
      (∀ key, theirBundle.bundle.oneTimePrekey = some key → Curve.isCanonicalX25519 key = true) ∧
      p.dh.isValidIdentityKey theirBundle.bundle.identityKey = true := by
  unfold bundleFault
  dsimp only
  split_ifs with absent encoding invalid
  · refine iff_of_false id ?_
    rintro ⟨present, -⟩
    exact absent present
  · refine iff_of_false id ?_
    rintro ⟨-, identity, signed, oneTime, -⟩
    rw [identity, signed, (Option.all_eq_true _ _).2 oneTime] at encoding
    exact Bool.false_ne_true encoding
  · refine iff_of_false id ?_
    rintro ⟨-, -, -, -, valid⟩
    rw [valid] at invalid
    exact Bool.false_ne_true invalid
  · simp only [Bool.or_eq_true, Bool.not_eq_true', not_or, Bool.not_eq_false] at encoding invalid
    exact iff_of_true rfl ⟨not_not.1 absent, encoding.1.1, encoding.1.2,
      (Option.all_eq_true _ _).1 encoding.2, invalid⟩

/-- The identity key of a bundle without fault passes the rule. -/
theorem rule_of_no_fault (sound : bundleFault p theirBundle = none) :
    identityKeyRefusal p.dh theirBundle.bundle.identityKey = none := by
  obtain ⟨-, canonical, -, -, valid⟩ := bundleFault_none.1 sound
  rw [identityKeyRefusal, canonical, valid]
  rfl

theorem bundleFault_own {e : Session.Error} (fault : bundleFault p theirBundle = some e) :
    e ≠ .unexpectedIdentity := by
  unfold bundleFault at fault
  dsimp only at fault
  split_ifs at fault
  · simp [← Option.some.inj fault]
  · simp [← Option.some.inj fault]
  · simp [← Option.some.inj fault]

/-- The leaf's checks against the bundle's own key, which is the one it carries. -/
theorem checkBundle_own (p : Primitives K) (theirBundle : PublishedBundle) :
    checkBundle p theirBundle theirBundle.bundle.identityKey =
      if theirBundle.bundle.oneTimePrekey.isSome ≠
          decide (theirBundle.oneTimePrekeyId ≠ absentId) then .error .inconsistentBundle
      else if !Curve.isCanonicalX25519 theirBundle.bundle.identityKey ||
          !Curve.isCanonicalX25519 theirBundle.bundle.signedPrekey ||
          !theirBundle.bundle.oneTimePrekey.all Curve.isCanonicalX25519 then .error .badEncoding
      else (Handshake.verifyBundle p.dh p.xed theirBundle.bundle).mapError .handshake := by
  unfold checkBundle
  dsimp only
  rw [if_neg (not_not.2 rfl)]
  generalize Handshake.verifyBundle p.dh p.xed theirBundle.bundle = verified
  cases theirBundle.bundle.oneTimePrekey with
  | none => cases verified <;> rfl
  | some key => cases verified <;> rfl

/-- The leaf refuses a faulty bundle by its fault, and draws nothing. -/
theorem leaf_fault {e : Session.Error} (fault : bundleFault p theirBundle = some e) :
    establishInitiatorFor p ourIdentity theirBundle theirBundle.bundle.identityKey rng =
      (.error e, rng) := by
  have refused : checkBundle p theirBundle theirBundle.bundle.identityKey = .error e := by
    unfold bundleFault at fault
    dsimp only at fault
    rw [checkBundle_own]
    split_ifs at fault with absent encoding invalid
    · rw [if_pos absent, Option.some.inj fault]
    · rw [if_neg absent, if_pos encoding, Option.some.inj fault]
    · rw [if_neg absent, if_neg encoding, Handshake.verifyBundle, if_pos invalid,
        ← Option.some.inj fault]
      rfl
  rw [establishInitiatorFor, refused]

/-- The leaf never misses the key it is told to expect, when that is the bundle's. -/
theorem leaf_expects_own :
    (establishInitiatorFor p ourIdentity theirBundle theirBundle.bundle.identityKey rng).1 ≠
      .error .unexpectedIdentity := by
  have checked : checkBundle p theirBundle theirBundle.bundle.identityKey ≠
      .error .unexpectedIdentity := by
    rw [checkBundle_own]
    split_ifs with absent encoding
    · simp
    · simp
    · generalize Handshake.verifyBundle p.dh p.xed theirBundle.bundle = verified
      cases verified with
      | error e => simp [Except.mapError]
      | ok done => simp [Except.mapError]
  unfold establishInitiatorFor
  split
  · rename_i e refused
    rw [refused] at checked
    intro same
    exact checked (congrArg Except.error (Except.error.inj same))
  · dsimp only
    split
    · simp
    · split
      · simp
      · split
        · simp
        · simp

/-- The leaf's session has the bundle's identity key for its peer's. -/
theorem leaf_peer {expected : Arr 32} {session : Session K}
    (established : (establishInitiatorFor p ourIdentity theirBundle expected rng).1 = .ok session) :
    session.peerIdentityPublic = theirBundle.bundle.identityKey := by
  unfold establishInitiatorFor at established
  split at established
  · simp at established
  · dsimp only at established
    split at established
    · simp at established
    · split at established
      · simp at established
      · split at established
        · simp at established
        · rw [← Except.ok.inj established]
          rfl

/-- What the leaf answers, as the wrapper hands it on. -/
def leafAnswer (p : Primitives K) (ourIdentity : Identity) (theirBundle : PublishedBundle)
    (rng : Rng) : Except InitiatorError (Session K) × Rng :=
  let answer := establishInitiatorFor p ourIdentity theirBundle theirBundle.bundle.identityKey rng
  (answer.1.mapError .establish, answer.2)

theorem leafAnswer_own :
    (leafAnswer p ourIdentity theirBundle rng).1 ≠ .error (.establish .unexpectedIdentity) := by
  have own := @leaf_expects_own K p ourIdentity theirBundle rng
  unfold leafAnswer
  dsimp only
  generalize (establishInitiatorFor p ourIdentity theirBundle theirBundle.bundle.identityKey rng).1 =
    answer at own ⊢
  cases answer with
  | error e => simpa [Except.mapError] using own
  | ok session => simp [Except.mapError]

/-- **The wrapper**, past a well-formed expectation: the fault of the bundle, the
expectation's refusal, or what the leaf answers. -/
theorem establishInitiator_eq {expectation : Expectation}
    (wellFormed : expectation.isMalformed = false) :
    establishInitiator p ourIdentity theirBundle expectation rng =
      (bundleFault p theirBundle).elim
        ((expectationRefusal p.dh theirBundle.bundle.identityKey expectation).elim
          (leafAnswer p ourIdentity theirBundle rng) fun refusal => (.error refusal, rng))
        fun e => (.error (.establish e), rng) := by
  unfold establishInitiator bundleFault
  dsimp only
  rw [if_neg (by rw [wellFormed]; exact Bool.false_ne_true)]
  split_ifs with absent encoding invalid
  · rfl
  · rfl
  · -- The expectation applies the identity-key rule first.
    have rule : identityKeyRefusal p.dh theirBundle.bundle.identityKey =
        some .invalidIdentityKey := by
      rw [identityKeyRefusal, if_neg, if_pos invalid]
      intro notCanonical
      exact encoding (by rw [notCanonical]; rfl)
    simp only [expectationRefusal, rule]
    rfl
  · unfold leafAnswer
    cases expectationRefusal p.dh theirBundle.bundle.identityKey expectation with
    | some refusal => rfl
    | none =>
        generalize establishInitiatorFor p ourIdentity theirBundle
          theirBundle.bundle.identityKey rng = answer
        obtain ⟨e | session, rng'⟩ := answer
        · rfl
        · rfl

/-- No refusal of an expectation is the leaf's own. -/
theorem expectationRefusal_own {key : Arr 32} {expectation : Expectation} :
    expectationRefusal p.dh key expectation ≠ some (.establish .unexpectedIdentity) := by
  unfold expectationRefusal
  split
  · simp
  · simp
  · split
    · split <;> simp
    · dsimp only
      split_ifs <;> simp

/-- A key an expectation admits as a first contact's is looked up as no one's. -/
theorem lookup_unattributed {key : Arr 32} {records : List Record}
    (rule : identityKeyRefusal p.dh key = none)
    (unknown : ∀ record ∈ records, standing key record = .of .new) :
    lookup p.dh key records =
      .ok { attribution := .unattributed, sameFor := [], retiredFor := [], malformed := [] } := by
  rw [lookup, rule]
  simp only [lookupFrom_new unknown 0]
  rfl

/-- A session the wrapper returns: a well-formed expectation that admits the key of
the bundle, which is the session's peer. -/
theorem establishInitiator_ok {expectation : Expectation} {session : Session K}
    (established : (establishInitiator p ourIdentity theirBundle expectation rng).1 = .ok session) :
    expectation.isMalformed = false ∧
      identityKeyRefusal p.dh theirBundle.bundle.identityKey = none ∧
      expectation.Admits theirBundle.bundle.identityKey ∧
      session.peerIdentityPublic = theirBundle.bundle.identityKey := by
  have wellFormed : expectation.isMalformed = false := by
    rw [← Bool.not_eq_true]
    intro malformed
    rw [establishInitiator, if_pos malformed] at established
    simp at established
  rw [establishInitiator_eq wellFormed] at established
  cases fault : bundleFault p theirBundle with
  | some e => simp [fault] at established
  | none =>
      cases passed : expectationRefusal p.dh theirBundle.bundle.identityKey expectation with
      | some refusal => simp [fault, passed] at established
      | none =>
          obtain ⟨rule, admits⟩ := (expectationRefusal_none wellFormed).1 passed
          refine ⟨wellFormed, rule, admits, ?_⟩
          simp only [fault, passed, Option.elim, leafAnswer] at established
          cases answer : establishInitiatorFor p ourIdentity theirBundle
              theirBundle.bundle.identityKey rng with
          | mk result rng' =>
              cases result with
              | error e => simp [answer, Except.mapError] at established
              | ok session' =>
                  simp only [answer, Except.mapError, Except.ok.injEq] at established
                  rw [← established]
                  exact leaf_peer (congrArg Prod.fst answer)

/-- **Establishing under an expectation agrees with the lookup and with the leaf.**
A session's peer is the bundle's identity key; under *known* it is current and not
retired, which is how `classify` has it, and under *first contact* a lookup in the
same records attributes it to none.  The leaf's own refusal of an unexpected key
is never the answer.  With an expectation that is well formed and admits the key
the answer and the draws are the leaf's; and so they are, whatever the expectation
admits, for a bundle that fails the presence, canonical-key or identity-key check. -/
theorem expectation_agrees (p : Primitives K) (ourIdentity : Identity)
    (theirBundle : PublishedBundle) (expectation : Expectation) (rng : Rng) :
    let bundle := theirBundle.bundle
    let leaf := establishInitiatorFor p ourIdentity theirBundle bundle.identityKey rng
    let result := establishInitiator p ourIdentity theirBundle expectation rng
    (∀ session, result.1 = .ok session →
      expectation.isMalformed = false ∧ session.peerIdentityPublic = bundle.identityKey ∧
      (∀ record, expectation = .known record →
        bundle.identityKey ∈ record.current ∧ bundle.identityKey ∉ record.retired ∧
          classify p.dh bundle.identityKey record = .ok .same) ∧
      ∀ records, expectation = .firstContact records →
        lookup p.dh session.peerIdentityPublic records =
          .ok { attribution := .unattributed, sameFor := [], retiredFor := [], malformed := [] }) ∧
    result.1 ≠ .error (.establish .unexpectedIdentity) ∧
    (expectation.isMalformed = false → expectation.Admits bundle.identityKey →
      result = (leaf.1.mapError .establish, leaf.2)) ∧
    (expectation.isMalformed = false →
      (bundle.oneTimePrekey.isSome ≠ decide (theirBundle.oneTimePrekeyId ≠ absentId) ∨
        Curve.isCanonicalX25519 bundle.identityKey = false ∨
        Curve.isCanonicalX25519 bundle.signedPrekey = false ∨
        (∃ key, bundle.oneTimePrekey = some key ∧ Curve.isCanonicalX25519 key = false) ∨
        p.dh.isValidIdentityKey bundle.identityKey = false) →
      ∃ e, leaf = (.error e, rng) ∧ result = (.error (.establish e), rng)) := by
  intro bundle leaf result
  refine ⟨?_, ?_, ?_, ?_⟩
  · intro session established
    obtain ⟨wellFormed, rule, admits, peer⟩ := establishInitiator_ok established
    refine ⟨wellFormed, peer, ?_, ?_⟩
    · rintro record rfl
      obtain ⟨current, kept⟩ := admits
      refine ⟨current, kept, ?_⟩
      rw [Expectation.isMalformed, Bool.or_eq_false_iff] at wellFormed
      rw [classify, rule, standing_eq wellFormed.2, if_neg kept, if_pos current]
    · rintro records rfl
      rw [peer]
      exact lookup_unattributed rule
        ((firstContact_admits (firstContact_wellFormed wellFormed)).1 admits)
  · show (establishInitiator p ourIdentity theirBundle expectation rng).1 ≠ _
    cases malformed : expectation.isMalformed with
    | true =>
        rw [establishInitiator, if_pos malformed]
        simp
    | false =>
        rw [establishInitiator_eq malformed]
        cases fault : bundleFault p theirBundle with
        | some e =>
            have own : e ≠ .unexpectedIdentity := bundleFault_own fault
            simpa using own
        | none =>
            have own := @expectationRefusal_own K p theirBundle.bundle.identityKey expectation
            cases passed : expectationRefusal p.dh theirBundle.bundle.identityKey expectation with
            | some refusal =>
                rw [passed] at own
                simpa using own
            | none => exact leafAnswer_own
  · intro wellFormed admits
    show establishInitiator p ourIdentity theirBundle expectation rng = _
    rw [establishInitiator_eq wellFormed]
    cases fault : bundleFault p theirBundle with
    | some e =>
        have refused : leaf = (.error e, rng) := leaf_fault fault
        rw [refused]
        rfl
    | none =>
        have passed := (expectationRefusal_none wellFormed).2 ⟨rule_of_no_fault fault, admits⟩
        rw [passed]
        rfl
  · intro wellFormed faulty
    obtain ⟨e, fault⟩ : ∃ e, bundleFault p theirBundle = some e := by
      rw [← Option.ne_none_iff_exists', Ne, bundleFault_none]
      rintro ⟨present, identity, signed, oneTime, valid⟩
      rcases faulty with absent | identity' | signed' | ⟨key, here, oneTime'⟩ | invalid
      · exact absent present
      · exact Bool.false_ne_true (identity'.symm.trans identity)
      · exact Bool.false_ne_true (signed'.symm.trans signed)
      · exact Bool.false_ne_true (oneTime'.symm.trans (oneTime key here))
      · exact Bool.false_ne_true (invalid.symm.trans valid)
    refine ⟨e, leaf_fault fault, ?_⟩
    show establishInitiator p ourIdentity theirBundle expectation rng = _
    rw [establishInitiator_eq wellFormed, fault]
    rfl

end Establishing

end Tacenta.Identities
