/-
# Tacenta.Store.Invariant -- what every store operation keeps

`PrekeyStore::invariant` and `signatures_verify` as propositions (`Valid`,
`Signed`), and the lemma each operation keeps them by.  One counter numbers every
key, so the operations that mint keys share one argument: the identifiers after
are among the identifiers before and the one the counter stood at
(`Valid.of_subperm`).
-/
import Tacenta.Store.State

set_option autoImplicit false

namespace Tacenta.Store

open Tacenta.Wire (absentId)

variable {K : Type} {p : Primitives K} {s : PrekeyStore K} {identity : Identity}

/-- No key has more entries in the record than its budget. -/
def WithinBudget (s : PrekeyStore K) : Prop :=
  ∀ id, s.lastResortSeenFor id ≤ maxLastResortSeen

/-- The clauses of `PrekeyStore::invariant`. -/
structure Valid (p : Primitives K) (s : PrekeyStore K) : Prop where
  identity : p.dh.isValidIdentityKey s.identityPublic = true
  numbered : ∀ id ∈ s.ids, id ≠ absentId ∧ id < s.nextId
  distinct : s.ids.Nodup
  tagged : ∀ entry ∈ s.lastResortSeen, s.isLastResort entry.1 = true
  recorded_once : s.lastResortSeen.Pairwise fun a b => a.2 ≠ b.2
  budget : WithinBudget s
  blocked_live : ∀ id ∈ s.legacyLastResortBlocked, s.isLastResort id = true
  blocked_once : s.legacyLastResortBlocked.Nodup

/-- The two counts the invariant makes bound every key's entries, since an entry
tagged with a third key breaks it. -/
theorem withinBudget_iff (tagged : ∀ entry ∈ s.lastResortSeen, s.isLastResort entry.1 = true) :
    WithinBudget s ↔
      s.lastResortSeen.countP (fun entry => entry.1 = s.kemId) ≤ maxLastResortSeen ∧
      s.lastResortSeen.countP (fun entry =>
        decide (entry.1 ≠ s.kemId) && decide (some entry.1 = s.previousKemId)) ≤
          maxLastResortSeen := by
  constructor
  · intro within
    refine ⟨within s.kemId, ?_⟩
    cases previous : s.previousKemId with
    | none => simp
    | some id =>
        refine le_trans (List.countP_mono_left fun entry _ named => ?_) (within id)
        simp only [Option.some.injEq, Bool.and_eq_true, decide_eq_true_eq] at named
        simpa using named.2
  · rintro ⟨current, previous⟩ id
    unfold PrekeyStore.lastResortSeenFor
    by_cases isCurrent : id = s.kemId
    · simpa [isCurrent] using current
    by_cases isPrevious : some id = s.previousKemId
    · refine le_trans (List.countP_mono_left fun entry _ named => ?_) previous
      simp only [decide_eq_true_eq] at named
      simp [named, isCurrent, isPrevious]
    · refine le_trans (le_of_eq (List.countP_eq_zero.2 fun entry member named => ?_)) (Nat.zero_le _)
      have := tagged entry member
      simp only [decide_eq_true_eq] at named
      simp [PrekeyStore.isLastResort, named, isCurrent, isPrevious] at this

theorem invariant_iff [DecidableEq K] : s.invariant p = true ↔ Valid p s := by
  simp only [PrekeyStore.invariant, Bool.and_eq_true, decide_eq_true_eq, List.all_eq_true]
  constructor
  · rintro ⟨⟨⟨⟨⟨identity, numbered, distinct⟩, tagged, once⟩, current⟩, previous⟩, live, blocked⟩
    exact ⟨identity, numbered, distinct, tagged, once,
      (withinBudget_iff tagged).2 ⟨current, previous⟩, live, blocked⟩
  · intro valid
    obtain ⟨current, previous⟩ := (withinBudget_iff valid.tagged).1 valid.budget
    exact ⟨⟨⟨⟨⟨valid.identity, valid.numbered, valid.distinct⟩, valid.tagged, valid.recorded_once⟩,
      current⟩, previous⟩, valid.blocked_live, valid.blocked_once⟩

/-- The clauses of `signatures_verify`. -/
structure Signed (p : Primitives K) (s : PrekeyStore K) : Prop where
  signedPrekey :
    PrekeyStore.signedPrekeySignatureOk p s.identityPublic s.signedPrekeySecret s.signedPrekeySig =
      true
  kem : PrekeyStore.kemPrekeySignatureOk p s.identityPublic s.kem s.kemSig = true
  kemOneTime : ∀ entry ∈ s.kemOneTime,
    PrekeyStore.kemPrekeySignatureOk p s.identityPublic entry.2.1 entry.2.2 = true
  previousSignedPrekey : ∀ r ∈ s.previousSignedPrekey,
    PrekeyStore.signedPrekeySignatureOk p s.identityPublic r.1 r.2.2 = true
  previousKem : ∀ r ∈ s.previousKem,
    PrekeyStore.kemPrekeySignatureOk p s.identityPublic r.1 r.2.2 = true

theorem signaturesVerify_iff : s.signaturesVerify p = true ↔ Signed p s := by
  unfold PrekeyStore.signaturesVerify
  constructor
  · intro h
    simp only [Bool.and_eq_true, List.all_eq_true] at h
    obtain ⟨⟨⟨⟨h1, h2⟩, h3⟩, h4⟩, h5⟩ := h
    refine ⟨h1, h2, h3, fun r hr => ?_, fun r hr => ?_⟩
    · rw [Option.mem_def] at hr
      simpa [hr] using h4
    · rw [Option.mem_def] at hr
      simpa [hr] using h5
  · rintro ⟨h1, h2, h3, h4, h5⟩
    simp only [Bool.and_eq_true, List.all_eq_true]
    refine ⟨⟨⟨⟨h1, h2⟩, h3⟩, ?_⟩, ?_⟩
    · cases h : s.previousSignedPrekey with
      | none => rfl
      | some r => exact h4 r h
    · cases h : s.previousKem with
      | none => rfl
      | some r => exact h5 r h

/-! ## The counter -/

theorem nextId_of_checkedAdd {a b : UInt32} (h : a.checkedAdd 1 = some b) :
    b.toNat = a.toNat + 1 := by
  simpa using UInt32.checkedAdd_eq_some.1 h

/-- A fresh identifier is no identifier the store already holds. -/
theorem Valid.nextId_not_mem (valid : Valid p s) : s.nextId ∉ s.ids := fun member =>
  absurd (valid.numbered _ member).2 (UInt32.lt_irrefl _)

/-- The two last-resort keys have two identifiers. -/
theorem Valid.kemId_ne_previous (valid : Valid p s) {retired : KeyPair × UInt32 × Arr 64}
    (previous : s.previousKem = some retired) : s.kemId ≠ retired.2.1 := by
  have distinct := valid.distinct
  simp only [PrekeyStore.ids, previous, Option.map_some, Option.toList_some,
    List.append_assoc, List.cons_append, List.nil_append, List.nodup_cons] at distinct
  have ne := distinct.2.1
  simp only [List.mem_append, List.mem_cons, not_or] at ne
  exact ne.2.1

theorem Valid.nextId_ne_absent (valid : Valid p s) : s.nextId ≠ absentId := by
  have := (valid.numbered s.signedPrekeyId (by simp [PrekeyStore.ids])).2
  rw [UInt32.lt_iff_toNat_lt] at this
  rw [Ne, ← UInt32.toNat_inj]
  simp only [absentId, UInt32.toNat_zero]
  omega

/-- **Minting keeps the numbering.**  When the identifiers after are among those
before and the one the counter stood at, and the counter moved past it, they are
again numbered below the counter and distinct. -/
theorem Valid.of_subperm (valid : Valid p s) {ids : List UInt32} {next : UInt32}
    (climbs : s.nextId.checkedAdd 1 = some next) (among : ids.Subperm (s.nextId :: s.ids)) :
    (∀ id ∈ ids, id ≠ absentId ∧ id < next) ∧ ids.Nodup := by
  have above := nextId_of_checkedAdd climbs
  constructor
  · intro id member
    have := among.subset member
    rw [List.mem_cons] at this
    rcases this with rfl | old
    · refine ⟨valid.nextId_ne_absent, ?_⟩
      rw [UInt32.lt_iff_toNat_lt]
      omega
    · obtain ⟨present, below⟩ := valid.numbered id old
      refine ⟨present, ?_⟩
      rw [UInt32.lt_iff_toNat_lt] at below ⊢
      omega
  · obtain ⟨l, perm, sub⟩ := among
    exact perm.nodup_iff.1 (sub.nodup (List.nodup_cons.2 ⟨valid.nextId_not_mem, valid.distinct⟩))

/-! ## Minting -/

theorem mintKem_signed (correct : p.xed.Correct p.dh) (ours : identity.public p = s.identityPublic)
    (rng : Rng) : PrekeyStore.kemPrekeySignatureOk p s.identityPublic
      (mintKem p identity rng).1.1 (mintKem p identity rng).1.2 = true := by
  rw [← ours]
  exact correct _ _ _

theorem mintSignedPrekey_signed (correct : p.xed.Correct p.dh)
    (ours : identity.public p = s.identityPublic) (rng : Rng) :
    PrekeyStore.signedPrekeySignatureOk p s.identityPublic
      (mintSignedPrekey p identity rng).1.1 (mintSignedPrekey p identity rng).1.2 = true := by
  rw [← ours]
  exact correct _ _ _

/-- A key pair the KEM generates passes its own reader's checks. -/
theorem keyPairFromBytes_generate (honest : p.kem.Honest) (rng : Rng) :
    p.kem.keyPairFromBytes (p.kem.generate rng).1.raw = some (p.kem.generate rng).1 := by
  set seed := (fillBytes 64 rng).1
  have generated : (p.kem.generate rng).1 =
      ⟨(p.kem.generateKeyPair seed).1 ++ (p.kem.generateKeyPair seed).2⟩ := rfl
  have sk := honest.sk_length seed
  have pk := honest.pk_length seed
  have front : ((p.kem.generateKeyPair seed).1 ++ (p.kem.generateKeyPair seed).2).take
      MlKem.privateKeyLen = (p.kem.generateKeyPair seed).1 := List.take_left' sk
  have back : ((p.kem.generateKeyPair seed).1 ++ (p.kem.generateKeyPair seed).2).drop
      MlKem.privateKeyLen = (p.kem.generateKeyPair seed).2 := List.drop_left' sk
  rw [generated]
  simp [MlKem.keyPairFromBytes, sk, pk, front, back, honest.pk_valid, honest.sk_valid,
    honest.pk_embedded]

/-! ## Refilling -/

/-- One turn of the curve loop. -/
def addCurve (s : PrekeyStore K) (next : UInt32) (secret : Arr 32) : PrekeyStore K :=
  { s with nextId := next, oneTime := s.oneTime ++ [(s.nextId, secret)] }

/-- One turn of the KEM loop. -/
def addKem (s : PrekeyStore K) (next : UInt32) (entry : KeyPair × Arr 64) : PrekeyStore K :=
  { s with nextId := next, kemOneTime := s.kemOneTime ++ [(s.nextId, entry.1, entry.2)] }

theorem ids_addCurve (s : PrekeyStore K) (next : UInt32) (secret : Arr 32) :
    (addCurve s next secret).ids.Perm (s.nextId :: s.ids) := by
  have split : (addCurve s next secret).ids = [s.signedPrekeyId, s.kemId] ++
      (s.previousSignedPrekey.map fun r => r.2.1).toList ++ (s.previousKem.map fun r => r.2.1).toList ++
        s.oneTime.map Prod.fst ++ s.nextId :: s.kemOneTime.map Prod.fst := by
    simp [PrekeyStore.ids, addCurve]
  rw [split]
  exact List.perm_middle

theorem ids_addKem (s : PrekeyStore K) (next : UInt32) (entry : KeyPair × Arr 64) :
    (addKem s next entry).ids.Perm (s.nextId :: s.ids) := by
  simp only [PrekeyStore.ids, addKem, List.map_append, List.map_cons, List.map_nil]
  rw [← List.append_assoc]
  exact List.perm_append_singleton _ _

theorem Valid.addCurve (valid : Valid p s) {next : UInt32}
    (climbs : s.nextId.checkedAdd 1 = some next) (secret : Arr 32) :
    Valid p (addCurve s next secret) := by
  obtain ⟨numbered, distinct⟩ := valid.of_subperm climbs (ids_addCurve s next secret).subperm
  exact ⟨valid.identity, numbered, distinct, valid.tagged, valid.recorded_once, valid.budget,
    valid.blocked_live, valid.blocked_once⟩

theorem Valid.addKem (valid : Valid p s) {next : UInt32}
    (climbs : s.nextId.checkedAdd 1 = some next) (entry : KeyPair × Arr 64) :
    Valid p (addKem s next entry) := by
  obtain ⟨numbered, distinct⟩ := valid.of_subperm climbs (ids_addKem s next entry).subperm
  exact ⟨valid.identity, numbered, distinct, valid.tagged, valid.recorded_once, valid.budget,
    valid.blocked_live, valid.blocked_once⟩

theorem Signed.addKem (signed : Signed p s) (next : UInt32) {entry : KeyPair × Arr 64}
    (ok : PrekeyStore.kemPrekeySignatureOk p s.identityPublic entry.1 entry.2 = true) :
    Signed p (addKem s next entry) := by
  refine ⟨signed.signedPrekey, signed.kem, fun e member => ?_, signed.previousSignedPrekey,
    signed.previousKem⟩
  rcases List.mem_append.1 member with old | new
  · exact signed.kemOneTime e old
  · rw [List.mem_singleton] at new
    rw [new]
    exact ok

/-- **Induction over the curve loop**: what every turn keeps, the loop keeps. -/
theorem replenishCurve_induction {motive : PrekeyStore K → Prop}
    (turn : ∀ (s : PrekeyStore K) (next : UInt32) (secret : Arr 32), motive s →
      s.nextId.checkedAdd 1 = some next → motive (addCurve s next secret)) :
    ∀ (count : Nat) (s : PrekeyStore K) (rng : Rng), motive s →
      motive (PrekeyStore.replenishCurve count s rng).1 := by
  intro count
  induction count with
  | zero => intro s rng start; exact start
  | succ count ih =>
      intro s rng start
      rw [PrekeyStore.replenishCurve]
      cases climbs : s.nextId.checkedAdd 1 with
      | none => exact start
      | some next => exact ih _ _ (turn s next _ start climbs)

/-- **Induction over the KEM loop.** -/
theorem replenishKem_induction {motive : PrekeyStore K → Prop}
    (turn : ∀ (s : PrekeyStore K) (next : UInt32) (rng : Rng), motive s →
      s.nextId.checkedAdd 1 = some next → motive (addKem s next (mintKem p identity rng).1)) :
    ∀ (count : Nat) (s : PrekeyStore K) (rng : Rng), motive s →
      motive (PrekeyStore.replenishKem p identity count s rng).1 := by
  intro count
  induction count with
  | zero => intro s rng start; exact start
  | succ count ih =>
      intro s rng start
      rw [PrekeyStore.replenishKem]
      cases climbs : s.nextId.checkedAdd 1 with
      | none => exact start
      | some next => exact ih _ _ (turn s next rng start climbs)

/-- What every turn of both loops keeps under this store's own identity,
`replenish` keeps; under another it changes nothing. -/
theorem replenish_induction (p : Primitives K) (s : PrekeyStore K) (identity : Identity)
    {motive : PrekeyStore K → Prop} (start : motive s)
    (curve : ∀ (s : PrekeyStore K) (next : UInt32) (secret : Arr 32), motive s →
      s.nextId.checkedAdd 1 = some next → motive (addCurve s next secret))
    (kem : identity.public p = s.identityPublic →
      ∀ (s : PrekeyStore K) (next : UInt32) (rng : Rng), motive s →
        s.nextId.checkedAdd 1 = some next → motive (addKem s next (mintKem p identity rng).1))
    (count : Nat) (rng : Rng) : motive (s.replenish p identity count rng).1 := by
  unfold PrekeyStore.replenish
  by_cases ours : identity.public p = s.identityPublic
  · simp only [ours, ne_eq, not_true_eq_false, if_false]
    have first := replenishCurve_induction curve count s rng start
    split
    · exact first
    · exact replenishKem_induction (kem ours) count _ _ first
  · simpa [ours] using start

theorem Valid.replenish (valid : Valid p s) (identity : Identity) (count : Nat) (rng : Rng) :
    Valid p (s.replenish p identity count rng).1 :=
  replenish_induction p s identity (motive := Valid p) valid (fun _ _ secret v climbs => v.addCurve climbs secret)
    (fun _ _ _ _ v climbs => v.addKem climbs _) count rng

theorem Signed.replenish (signed : Signed p s) (correct : p.xed.Correct p.dh) (identity : Identity)
    (count : Nat) (rng : Rng) : Signed p (s.replenish p identity count rng).1 := by
  have both := replenish_induction p s identity
    (motive := fun t => t.identityPublic = s.identityPublic ∧ Signed p t) ⟨rfl, signed⟩
    (fun t next secret ⟨same, h⟩ _ => ⟨same, h.1, h.2, h.3, h.4, h.5⟩)
    (fun ours t next rng ⟨same, h⟩ _ =>
      ⟨same, h.addKem next (mintKem_signed correct (ours.trans same.symm) rng)⟩) count rng
  exact both.2

/-! ## Rotating -/

/-- A rotation that goes through: the identity is the store's and the counter
has room. -/
theorem rotateSignedPrekey_cases (p : Primitives K) (s : PrekeyStore K) (identity : Identity)
    (rng : Rng) :
    (s.rotateSignedPrekey p identity rng).1 = s ∨
    ∃ next, s.nextId.checkedAdd 1 = some next ∧ identity.public p = s.identityPublic ∧
      (s.rotateSignedPrekey p identity rng).1 =
        { s with
            nextId := next
            previousSignedPrekey := some (s.signedPrekeySecret, s.signedPrekeyId, s.signedPrekeySig)
            signedPrekeySecret := (mintSignedPrekey p identity rng).1.1
            signedPrekeyId := s.nextId
            signedPrekeySig := (mintSignedPrekey p identity rng).1.2 } := by
  unfold PrekeyStore.rotateSignedPrekey
  cases climbs : s.nextId.checkedAdd 1 with
  | none => exact .inl rfl
  | some next =>
      by_cases ours : identity.public p = s.identityPublic
      · exact .inr ⟨next, rfl, ours, by simp [ours]⟩
      · exact .inl (by simp [ours])

theorem rotateKem_cases (p : Primitives K) (s : PrekeyStore K) (identity : Identity) (rng : Rng) :
    (s.rotateKem p identity rng).1 = s ∨
    ∃ next, s.nextId.checkedAdd 1 = some next ∧ identity.public p = s.identityPublic ∧
      (s.rotateKem p identity rng).1 =
        { s with
            nextId := next
            previousKem := some (s.kem, s.kemId, s.kemSig)
            lastResortSeen := s.pruned.1
            legacyLastResortBlocked := s.pruned.2
            kem := (mintKem p identity rng).1.1
            kemId := s.nextId
            kemSig := (mintKem p identity rng).1.2 } := by
  unfold PrekeyStore.rotateKem
  cases climbs : s.nextId.checkedAdd 1 with
  | none => exact .inl rfl
  | some next =>
      by_cases ours : identity.public p = s.identityPublic
      · exact .inr ⟨next, rfl, ours, by simp [ours]⟩
      · exact .inl (by simp [ours])

/-- The identifiers after a rotation of the signed prekey. -/
theorem ids_rotateSignedPrekey (s : PrekeyStore K) :
    ([s.nextId, s.kemId] ++ [s.signedPrekeyId] ++ (s.previousKem.map fun r => r.2.1).toList ++
      s.oneTime.map Prod.fst ++ s.kemOneTime.map Prod.fst).Subperm (s.nextId :: s.ids) := by
  generalize rest : (s.previousKem.map fun r => r.2.1).toList ++
    s.oneTime.map Prod.fst ++ s.kemOneTime.map Prod.fst = l
  have before : s.ids = s.signedPrekeyId :: s.kemId ::
      ((s.previousSignedPrekey.map fun r => r.2.1).toList ++ l) := by
    rw [← rest]
    simp [PrekeyStore.ids]
  have after : [s.nextId, s.kemId] ++ [s.signedPrekeyId] ++
      (s.previousKem.map fun r => r.2.1).toList ++ s.oneTime.map Prod.fst ++
        s.kemOneTime.map Prod.fst = s.nextId :: s.kemId :: s.signedPrekeyId :: l := by
    rw [← rest]
    simp
  rw [before, after]
  refine (List.subperm_cons _).2 ((List.Perm.swap _ _ _).subperm.trans ?_)
  exact (List.subperm_cons _).2 ((List.subperm_cons _).2 (List.sublist_append_right _ _).subperm)

/-- The identifiers after a rotation of the last-resort key. -/
theorem ids_rotateKem (s : PrekeyStore K) :
    ([s.signedPrekeyId, s.nextId] ++ (s.previousSignedPrekey.map fun r => r.2.1).toList ++
      [s.kemId] ++ s.oneTime.map Prod.fst ++ s.kemOneTime.map Prod.fst).Subperm
        (s.nextId :: s.ids) := by
  generalize curve : (s.previousSignedPrekey.map fun r => r.2.1).toList = signed
  generalize pools : s.oneTime.map Prod.fst ++ s.kemOneTime.map Prod.fst = l
  have before : s.ids = s.signedPrekeyId :: s.kemId ::
      (signed ++ ((s.previousKem.map fun r => r.2.1).toList ++ l)) := by
    rw [← curve, ← pools]
    simp [PrekeyStore.ids]
  have after : [s.signedPrekeyId, s.nextId] ++ signed ++ [s.kemId] ++ s.oneTime.map Prod.fst ++
      s.kemOneTime.map Prod.fst = s.signedPrekeyId :: s.nextId :: (signed ++ s.kemId :: l) := by
    rw [← pools]
    simp
  rw [before, after]
  refine (List.Perm.swap _ _ _).subperm.trans ((List.subperm_cons _).2 ((List.subperm_cons _).2 ?_))
  refine List.perm_middle.subperm.trans ((List.subperm_cons _).2 ?_)
  exact (List.subperm_append_left _).2 (List.sublist_append_right _ _).subperm

theorem Valid.rotateSignedPrekey (valid : Valid p s) (identity : Identity) (rng : Rng) :
    Valid p (s.rotateSignedPrekey p identity rng).1 := by
  rcases rotateSignedPrekey_cases p s identity rng with same | ⟨next, climbs, -, rotated⟩
  · rw [same]
    exact valid
  rw [rotated]
  generalize (mintSignedPrekey p identity rng).1 = minted
  obtain ⟨numbered, distinct⟩ := valid.of_subperm climbs (ids_rotateSignedPrekey s)
  refine ⟨valid.identity, ?_, ?_, valid.tagged, valid.recorded_once, valid.budget,
    valid.blocked_live, valid.blocked_once⟩
  · exact numbered
  · exact distinct

theorem Signed.rotateSignedPrekey (signed : Signed p s) (correct : p.xed.Correct p.dh)
    (identity : Identity) (rng : Rng) : Signed p (s.rotateSignedPrekey p identity rng).1 := by
  rcases rotateSignedPrekey_cases p s identity rng with same | ⟨next, -, ours, rotated⟩
  · rw [same]
    exact signed
  rw [rotated]
  refine ⟨mintSignedPrekey_signed correct ours rng, signed.kem, signed.kemOneTime, ?_,
    signed.previousKem⟩
  intro r hr
  simp only [Option.mem_def, Option.some.injEq] at hr
  subst hr
  exact signed.signedPrekey

/-- What a rotation keeps of a list of tags is tagged with the key it retires. -/
theorem pruned_tagged (valid : Valid p s) :
    (∀ entry ∈ s.pruned.1, entry.1 = s.kemId) ∧ (∀ id ∈ s.pruned.2, id = s.kemId) := by
  have tagged : ∀ entry ∈ s.lastResortSeen, entry.1 = s.kemId ∨ some entry.1 = s.previousKemId :=
    fun entry member => by simpa [PrekeyStore.isLastResort] using valid.tagged entry member
  have live : ∀ id ∈ s.legacyLastResortBlocked, id = s.kemId ∨ some id = s.previousKemId :=
    fun id member => by simpa [PrekeyStore.isLastResort] using valid.blocked_live id member
  unfold PrekeyStore.pruned
  cases previous : s.previousKem with
  | none =>
      simp only [PrekeyStore.previousKemId, previous, Option.map_none, reduceCtorEq,
        or_false] at tagged live
      exact ⟨tagged, live⟩
  | some r =>
      simp only [PrekeyStore.previousKemId, previous, Option.map_some,
        Option.some.injEq] at tagged live
      constructor
      · intro entry member
        obtain ⟨seen, other⟩ := List.mem_filter.1 member
        exact (tagged entry seen).resolve_right (by simpa using other)
      · intro id member
        obtain ⟨blocked, other⟩ := List.mem_filter.1 member
        exact (live id blocked).resolve_right (by simpa using other)

theorem pruned_sublist (s : PrekeyStore K) :
    s.pruned.1.Sublist s.lastResortSeen ∧ s.pruned.2.Sublist s.legacyLastResortBlocked := by
  unfold PrekeyStore.pruned
  cases s.previousKem with
  | none => exact ⟨List.Sublist.refl _, List.Sublist.refl _⟩
  | some r => exact ⟨List.filter_sublist, List.filter_sublist⟩

theorem Valid.rotateKem (valid : Valid p s) (identity : Identity) (rng : Rng) :
    Valid p (s.rotateKem p identity rng).1 := by
  rcases rotateKem_cases p s identity rng with same | ⟨next, climbs, -, rotated⟩
  · rw [same]
    exact valid
  rw [rotated]
  generalize (mintKem p identity rng).1 = minted
  obtain ⟨numbered, distinct⟩ := valid.of_subperm climbs (ids_rotateKem s)
  obtain ⟨seenTagged, blockedTagged⟩ := pruned_tagged valid
  obtain ⟨seenSub, blockedSub⟩ := pruned_sublist s
  refine ⟨valid.identity, ?_, ?_, ?_, valid.recorded_once.sublist seenSub, ?_, ?_,
    blockedSub.nodup valid.blocked_once⟩
  · exact numbered
  · exact distinct
  · intro entry member
    simp [PrekeyStore.isLastResort, PrekeyStore.previousKemId, seenTagged entry member]
  · exact fun id => le_trans seenSub.countP_le (valid.budget id)
  · intro id member
    simp [PrekeyStore.isLastResort, PrekeyStore.previousKemId, blockedTagged id member]

theorem Signed.rotateKem (signed : Signed p s) (correct : p.xed.Correct p.dh)
    (identity : Identity) (rng : Rng) : Signed p (s.rotateKem p identity rng).1 := by
  rcases rotateKem_cases p s identity rng with same | ⟨next, -, ours, rotated⟩
  · rw [same]
    exact signed
  rw [rotated]
  refine ⟨signed.signedPrekey, mintKem_signed correct ours rng, signed.kemOneTime,
    signed.previousSignedPrekey, ?_⟩
  intro r hr
  simp only [Option.mem_def, Option.some.injEq] at hr
  subst hr
  exact signed.kem

/-! ## A new store -/

/-- The numbers of `create_prekeys`: `n` keys of each kind, contiguous from one. -/
theorem forCount_numbers (count : Nat) :
    ∃ n ≤ 2147483646,
      (PrekeyNumbering.forCount count).signedPrekey = 1 ∧
      (PrekeyNumbering.forCount count).oneTime.1.toNat = 2 ∧
      (PrekeyNumbering.forCount count).oneTime.2.toNat = n + 2 ∧
      (PrekeyNumbering.forCount count).kem.toNat = n + 2 ∧
      (PrekeyNumbering.forCount count).kemOneTime.1.toNat = n + 3 ∧
      (PrekeyNumbering.forCount count).kemOneTime.2.toNat = 2 * n + 3 ∧
      (PrekeyNumbering.forCount count).nextId.toNat = 2 * n + 3 := by
  generalize capped : (if count < 2 ^ 32 then min (UInt32.ofNat count) maxCreatedOneTime
    else maxCreatedOneTime) = n
  have cap : maxCreatedOneTime.toNat = 2147483646 := by decide
  have small : n.toNat ≤ 2147483646 := by
    rw [← capped, ← cap]
    split
    · rw [show min (UInt32.ofNat count) maxCreatedOneTime =
        if UInt32.ofNat count ≤ maxCreatedOneTime then UInt32.ofNat count else maxCreatedOneTime
        from rfl]
      split
      · exact UInt32.le_iff_toNat_le.1 ‹_›
      · exact le_rfl
    · exact le_rfl
  refine ⟨n.toNat, small, ?_⟩
  have kem : n.checkedAdd 2 = some (n + 2) := by
    rw [UInt32.checkedAdd_eq_some, UInt32.toNat_add_of_lt (by simp; omega)]
  have start : (n + 2).checkedAdd 1 = some (n + 2 + 1) := by
    rw [UInt32.checkedAdd_eq_some] at kem
    simp only [UInt32.reduceToNat] at kem
    rw [UInt32.checkedAdd_eq_some, UInt32.toNat_add_of_lt (by simp; omega)]
  have next : (n + 2 + 1).checkedAdd n = some (n + 2 + 1 + n) := by
    rw [UInt32.checkedAdd_eq_some] at kem start
    simp only [UInt32.reduceToNat] at kem start
    rw [UInt32.checkedAdd_eq_some, UInt32.toNat_add_of_lt (by omega)]
  have numbering : PrekeyNumbering.forCount count =
      { signedPrekey := 1, oneTime := (2, n + 2), kem := n + 2,
        kemOneTime := (n + 2 + 1, n + 2 + 1 + n), nextId := n + 2 + 1 + n } := by
    simp only [PrekeyNumbering.forCount, capped, PrekeyNumbering.checked, kem, start, next,
      Option.bind_eq_bind, Option.bind_some, Option.pure_def]
  rw [UInt32.checkedAdd_eq_some] at kem start next
  simp only [UInt32.reduceToNat] at kem start
  rw [numbering]
  simp only [UInt32.reduceToNat, true_and]
  omega

theorem mintOneTime_ids (k : Nat) (id : UInt32) (rng : Rng) (room : id.toNat + k < 2 ^ 32) :
    ((mintOneTime id k rng).1.map fun e => e.1.toNat) = List.range' id.toNat k := by
  induction k generalizing id rng with
  | zero => rfl
  | succ k ih =>
      have next : (id + 1).toNat = id.toNat + 1 := UInt32.toNat_add_of_lt (by simp; omega)
      rw [mintOneTime, List.range'_succ]
      simp only [List.map_cons]
      rw [ih (id + 1) _ (by omega), next]

theorem mintKemOneTime_ids (k : Nat) (id : UInt32) (rng : Rng) (room : id.toNat + k < 2 ^ 32) :
    ((mintKemOneTime p identity id k rng).1.map fun e => e.1.toNat) = List.range' id.toNat k := by
  induction k generalizing id rng with
  | zero => rfl
  | succ k ih =>
      have next : (id + 1).toNat = id.toNat + 1 := UInt32.toNat_add_of_lt (by simp; omega)
      rw [mintKemOneTime, List.range'_succ]
      simp only [List.map_cons]
      rw [ih (id + 1) _ (by omega), next]

/-- What every minted KEM entry has, every entry of a minted pool has. -/
theorem mintKemOneTime_all {motive : KeyPair × Arr 64 → Prop}
    (each : ∀ rng, motive (mintKem p identity rng).1) (k : Nat) (id : UInt32) (rng : Rng) :
    ∀ e ∈ (mintKemOneTime p identity id k rng).1, motive e.2 := by
  induction k generalizing id rng with
  | zero => simp [mintKemOneTime]
  | succ k ih =>
      intro e member
      rw [mintKemOneTime, List.mem_cons] at member
      rcases member with rfl | rest
      · exact each rng
      · exact ih _ _ e rest

/-- The identifiers of a new store, as numbers. -/
theorem createPrekeys_ids (count : Nat) (rng : Rng) :
    ∃ n ≤ 2147483646, (createPrekeys p identity count rng).1.nextId.toNat = 2 * n + 3 ∧
      (createPrekeys p identity count rng).1.ids.map UInt32.toNat =
        [1, n + 2] ++ (List.range' 2 n ++ List.range' (n + 3) n) := by
  obtain ⟨n, small, signed, one, oneEnd, kem, kemStart, kemEnd, next⟩ := forCount_numbers count
  refine ⟨n, small, next, ?_⟩
  have curve := mintOneTime_ids n (PrekeyNumbering.forCount count).oneTime.1
  have kems := @mintKemOneTime_ids _ p identity n
    (PrekeyNumbering.forCount count).kemOneTime.1
  rw [one] at curve
  rw [kemStart] at kems
  have curveCount : (PrekeyNumbering.forCount count).oneTime.2.toNat -
      (PrekeyNumbering.forCount count).oneTime.1.toNat = n := by omega
  have kemCount : (PrekeyNumbering.forCount count).kemOneTime.2.toNat -
      (PrekeyNumbering.forCount count).kemOneTime.1.toNat = n := by omega
  simp only [createPrekeys, PrekeyStore.ids, curveCount, kemCount, signed, Option.map_none,
    Option.toList_none, List.append_nil, List.map_append, List.map_map, List.map_cons, List.map_nil,
    kem, UInt32.reduceToNat, List.append_assoc]
  refine congrArg _ (congrArg₂ _ ?_ ?_)
  · exact curve _ (by omega)
  · exact kems _ (by omega)

theorem createPrekeys_valid (honest : p.dh.Honest) (identity : Identity) (count : Nat) (rng : Rng) :
    Valid p (createPrekeys p identity count rng).1 := by
  obtain ⟨n, small, next, ids⟩ := @createPrekeys_ids _ p identity count rng
  have member : ∀ id ∈ (createPrekeys p identity count rng).1.ids, id.toNat = 1 ∨ id.toNat = n + 2 ∨
      (2 ≤ id.toNat ∧ id.toNat < 2 + n) ∨ (n + 3 ≤ id.toNat ∧ id.toNat < n + 3 + n) := by
    intro id h
    have := List.mem_map_of_mem (f := UInt32.toNat) h
    rw [ids] at this
    simpa [List.mem_range'_1] using this
  refine ⟨honest.publicKey_valid _, fun id h => ?_, ?_, by simp [createPrekeys],
    by simp [createPrekeys], fun id => by simp [PrekeyStore.lastResortSeenFor, createPrekeys],
    by simp [createPrekeys], by simp [createPrekeys]⟩
  · have := member id h
    rw [UInt32.lt_iff_toNat_lt, next, Ne, ← UInt32.toNat_inj]
    simp only [absentId, UInt32.toNat_zero]
    omega
  · have nodup : ((createPrekeys p identity count rng).1.ids.map UInt32.toNat).Nodup := by
      rw [ids]
      simp only [List.cons_append, List.nil_append, List.nodup_cons, List.mem_cons, List.mem_append,
        List.mem_range'_1, List.nodup_append]
      refine ⟨by omega, by omega, List.nodup_range', List.nodup_range', ?_⟩
      intro a ha b hb
      omega
    exact List.Nodup.of_map _ nodup

theorem createPrekeys_signed (correct : p.xed.Correct p.dh) (identity : Identity) (count : Nat)
    (rng : Rng) : Signed p (createPrekeys p identity count rng).1 := by
  refine ⟨mintSignedPrekey_signed correct rfl rng, mintKem_signed correct rfl _, ?_,
    by simp [createPrekeys], by simp [createPrekeys]⟩
  exact mintKemOneTime_all (motive := fun e => PrekeyStore.kemPrekeySignatureOk p
    (identity.public p) e.1 e.2 = true) (fun rng => correct _ _ _) _ _ _

end Tacenta.Store
