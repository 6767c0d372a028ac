/-
# Tacenta.Store.Batch -- a batch of one-time bundles, accepted in any order

`publish_one_time_batch` pairs the two pools from their ends, and every accepted
message swaps the last entry of each pool into the place of the one it spends.  So
positions move, and nothing depends on them: a bundle names its keys.

A schedule accepts first messages of the batch and refills or rotates in between.
`Midway` compares the store it reaches with the one the refills and the rotation
alone would have reached: they differ in the pools only, and there by the entries
spent.  `batch_order_independent` is read off that: each bundle's keys are still
there when its message comes, and what remains does not depend on the order.
-/
import Tacenta.Store.Serving

set_option autoImplicit false

namespace Tacenta.Store

open Tacenta.Session (firstMessageTo establishResponder respond spend)
open Tacenta.Wire (absentId)

variable {p : Primitives Secret} {s t u : PrekeyStore Secret} {owner : Identity}

/-! ## The batch -/

/-- The identifiers of a valid store's pools are each one key's. -/
theorem Valid.pools_nodup (valid : Valid p s) :
    (s.oneTime.map Prod.fst).Nodup ∧ (s.kemOneTime.map Prod.fst).Nodup := by
  have distinct := valid.distinct
  unfold PrekeyStore.ids at distinct
  rw [List.nodup_append, List.nodup_append] at distinct
  exact ⟨distinct.1.2.1, distinct.2.1⟩

/-- A bundle of the batch, by the entries behind it. -/
theorem mem_batch {b : PublishedBundle} (member : b ∈ s.publishOneTimeBatch p) :
    (∃ e ∈ s.oneTime, e.1 = b.oneTimePrekeyId) ∧ ∃ e ∈ s.kemOneTime, e.1 = b.kemPrekeyId := by
  obtain ⟨⟨curve, kem⟩, paired, rfl⟩ := List.mem_map.1 member
  obtain ⟨left, right⟩ := List.of_mem_zip paired
  exact ⟨⟨curve, List.mem_reverse.1 left, rfl⟩, ⟨kem, List.mem_reverse.1 right, rfl⟩⟩

theorem batch_oneTimeIds (p : Primitives Secret) (s : PrekeyStore Secret) :
    ((s.publishOneTimeBatch p).map PublishedBundle.oneTimePrekeyId).Sublist
      (s.oneTime.reverse.map Prod.fst) := by
  have names : (s.publishOneTimeBatch p).map PublishedBundle.oneTimePrekeyId =
      ((s.oneTime.reverse.zip s.kemOneTime.reverse).map Prod.fst).map Prod.fst := by
    rw [PrekeyStore.publishOneTimeBatch, List.map_map, List.map_map]
    rfl
  rw [names]
  exact (map_fst_zip_sublist _ _).map _

theorem batch_kemIds (p : Primitives Secret) (s : PrekeyStore Secret) :
    ((s.publishOneTimeBatch p).map PublishedBundle.kemPrekeyId).Sublist
      (s.kemOneTime.reverse.map Prod.fst) := by
  have names : (s.publishOneTimeBatch p).map PublishedBundle.kemPrekeyId =
      ((s.oneTime.reverse.zip s.kemOneTime.reverse).map Prod.snd).map Prod.fst := by
    rw [PrekeyStore.publishOneTimeBatch, List.map_map, List.map_map]
    rfl
  rw [names]
  exact (map_snd_zip_sublist _ _).map _

/-- **No two bundles of a batch name one key.** -/
theorem batch_nodup (valid : Valid p s) :
    ((s.publishOneTimeBatch p).map PublishedBundle.oneTimePrekeyId).Nodup ∧
      ((s.publishOneTimeBatch p).map PublishedBundle.kemPrekeyId).Nodup := by
  obtain ⟨curve, kem⟩ := valid.pools_nodup
  constructor
  · apply (batch_oneTimeIds p s).nodup
    rw [List.map_reverse]
    exact List.nodup_reverse.2 curve
  · apply (batch_kemIds p s).nodup
    rw [List.map_reverse]
    exact List.nodup_reverse.2 kem

/-! ## Operations that only add -/

/-- The store with entries in front of its pools. -/
def withFront (curve : List CurveEntry) (kem : List KemEntry) (s : PrekeyStore Secret) :
    PrekeyStore Secret :=
  { s with oneTime := curve ++ s.oneTime, kemOneTime := kem ++ s.kemOneTime }

/-- The store without its pools. -/
def bare (s : PrekeyStore Secret) : PrekeyStore Secret := { s with oneTime := [], kemOneTime := [] }

theorem withFront_bare (s : PrekeyStore Secret) : withFront s.oneTime s.kemOneTime (bare s) = s := by
  simp [withFront, bare]

theorem replenishCurve_withFront (curve : List CurveEntry) (kem : List KemEntry) (left : Nat)
    (s : PrekeyStore Secret) (rng : Rng) :
    PrekeyStore.replenishCurve left (withFront curve kem s) rng =
      (withFront curve kem (PrekeyStore.replenishCurve left s rng).1,
        (PrekeyStore.replenishCurve left s rng).2) := by
  induction left generalizing s rng with
  | zero => rfl
  | succ left ih =>
      have next : (withFront curve kem s).nextId = s.nextId := rfl
      rw [PrekeyStore.replenishCurve, PrekeyStore.replenishCurve, next]
      cases s.nextId.checkedAdd 1 with
      | none => rfl
      | some next =>
          simp only
          rw [← ih]
          simp only [withFront, List.append_assoc]

theorem replenishKem_withFront (identity : Identity) (curve : List CurveEntry)
    (kem : List KemEntry) (left : Nat) (s : PrekeyStore Secret) (rng : Rng) :
    PrekeyStore.replenishKem p identity left (withFront curve kem s) rng =
      (withFront curve kem (PrekeyStore.replenishKem p identity left s rng).1,
        (PrekeyStore.replenishKem p identity left s rng).2) := by
  induction left generalizing s rng with
  | zero => rfl
  | succ left ih =>
      have next : (withFront curve kem s).nextId = s.nextId := rfl
      rw [PrekeyStore.replenishKem, PrekeyStore.replenishKem, next]
      cases s.nextId.checkedAdd 1 with
      | none => rfl
      | some next =>
          simp only
          rw [← ih]
          simp only [withFront, List.append_assoc]

/-- **A refill only adds at the back**: what is in front of the pools does not
matter to it. -/
theorem replenish_withFront (curve : List CurveEntry) (kem : List KemEntry)
    (s : PrekeyStore Secret) (identity : Identity) (count : Nat) (rng : Rng) :
    ((withFront curve kem s).replenish p identity count rng).1 =
      withFront curve kem (s.replenish p identity count rng).1 := by
  have ours : (withFront curve kem s).identityPublic = s.identityPublic := rfl
  unfold PrekeyStore.replenish
  rw [ours]
  split
  · rfl
  · rw [replenishCurve_withFront]
    simp only
    split
    · rfl
    · rw [replenishKem_withFront]

theorem rotateSignedPrekey_withFront (curve : List CurveEntry) (kem : List KemEntry)
    (s : PrekeyStore Secret) (identity : Identity) (rng : Rng) :
    ((withFront curve kem s).rotateSignedPrekey p identity rng).1 =
      withFront curve kem (s.rotateSignedPrekey p identity rng).1 := by
  have next : (withFront curve kem s).nextId = s.nextId := rfl
  have ours : (withFront curve kem s).identityPublic = s.identityPublic := rfl
  unfold PrekeyStore.rotateSignedPrekey
  rw [next, ours]
  cases s.nextId.checkedAdd 1 with
  | none => rfl
  | some next =>
      simp only
      split
      · rfl
      · rfl

/-! ## Schedules -/

/-- An initiator, with the plaintext it sends and the randomness it draws. -/
structure Guest where
  identity : Identity
  plaintext : Bytes
  drawn : Rng
  drawn' : Rng

/-- The first message it sends in answer to a bundle of `owner`'s. -/
def Guest.message (p : Primitives Secret) (owner : Identity) (g : Guest) (b : PublishedBundle) :
    Option Bytes :=
  firstMessageTo p g.identity b (owner.public p) g.plaintext g.drawn g.drawn'

/-- What happens to a store whose batch is out. -/
inductive BatchOp where
  | accept (b : PublishedBundle) (rng : Rng)
  | replenish (identity : Identity) (count : Nat) (rng : Rng)
  | rotateSignedPrekey (identity : Identity) (rng : Rng)

/-- The bundle whose message is accepted. -/
def BatchOp.accepted : BatchOp → Option PublishedBundle
  | .accept b _ => some b
  | _ => none

/-- The operation of the store behind it. -/
def BatchOp.op (p : Primitives Secret) (owner : Identity) (guests : PublishedBundle → Guest) :
    BatchOp → Op
  | .accept b rng => .establishResponder owner (((guests b).message p owner b).getD []) rng
  | .replenish identity count rng => .replenish identity count rng
  | .rotateSignedPrekey identity rng => .rotateSignedPrekey identity rng

/-- The bundles a schedule accepts, in order. -/
def accepted (schedule : List BatchOp) : List PublishedBundle :=
  schedule.filterMap BatchOp.accepted

/-- The refills and rotations of a schedule, in order. -/
def others (schedule : List BatchOp) : List BatchOp :=
  schedule.filter fun op => op.accepted.isNone

/-- The store a schedule leaves. -/
def runBatch (p : Primitives Secret) (owner : Identity) (guests : PublishedBundle → Guest)
    (s : PrekeyStore Secret) (schedule : List BatchOp) : PrekeyStore Secret :=
  run p s (schedule.map (BatchOp.op p owner guests))

/-- A schedule for the batch of `s`: it accepts bundles of the batch, each once,
and replaces the signed prekey at most once. -/
structure Schedule (p : Primitives Secret) (owner : Identity) (guests : PublishedBundle → Guest)
    (s : PrekeyStore Secret) (schedule : List BatchOp) : Prop where
  members : ∀ b ∈ accepted schedule, b ∈ s.publishOneTimeBatch p
  once : (accepted schedule).Nodup
  rotated : replaced (step p) PrekeyStore.signedPrekeyId s
    (schedule.map (BatchOp.op p owner guests)) ≤ 1

variable {guests : PublishedBundle → Guest}

theorem runBatch_append (s : PrekeyStore Secret) (l l' : List BatchOp) :
    runBatch p owner guests s (l ++ l') =
      runBatch p owner guests (runBatch p owner guests s l) l' := by
  simp only [runBatch, run, List.map_append, List.foldl_append]

theorem Schedule.front {l l' : List BatchOp} (schedule : Schedule p owner guests s (l ++ l')) :
    Schedule p owner guests s l := by
  obtain ⟨members, once, rotated⟩ := schedule
  rw [accepted, List.filterMap_append] at members once
  rw [List.map_append, replaced_append] at rotated
  refine ⟨fun b member => members b (List.mem_append_left _ member), ?_, by omega⟩
  exact (List.nodup_append.1 once).1

/-- The bundle accepted last was in the batch, and not accepted before. -/
theorem Schedule.last {l l' : List BatchOp} {b : PublishedBundle} {rng : Rng}
    (schedule : Schedule p owner guests s (l ++ .accept b rng :: l')) :
    b ∈ s.publishOneTimeBatch p ∧ b ∉ accepted l := by
  obtain ⟨members, once, -⟩ := schedule
  rw [accepted, List.filterMap_append] at members once
  constructor
  · exact members b (List.mem_append_right _ (by simp [BatchOp.accepted]))
  · intro before
    exact (List.nodup_append.1 once).2.2 b before b (by simp [BatchOp.accepted]) rfl

/-! ## The entries not spent -/

/-- The entries whose identifiers are not among `spent`. -/
def unspent {α : Type} (spent : List UInt32) (l : List (UInt32 × α)) : List (UInt32 × α) :=
  l.filter fun e => !spent.contains e.1

theorem mem_unspent {α : Type} {spent : List UInt32} {l : List (UInt32 × α)} {e : UInt32 × α} :
    e ∈ unspent spent l ↔ e ∈ l ∧ e.1 ∉ spent := by
  simp [unspent]

theorem unspent_append {α : Type} (spent later : List UInt32) (l : List (UInt32 × α)) :
    unspent (spent ++ later) l = unspent later (unspent spent l) := by
  unfold unspent
  rw [List.filter_filter]
  apply List.filter_congr
  intro e _
  rw [List.contains_append, Bool.not_or, Bool.and_comm]

/-- Where identifiers are distinct, removing one is filtering it out. -/
theorem removed_perm {α : Type} {id : UInt32} {before after : List (UInt32 × α)}
    (distinct : (before.map Prod.fst).Nodup) (removed : Session.Removed id before after) :
    after.Perm (unspent [id] before) := by
  obtain ⟨entry, named, perm⟩ := removed
  have distinct' := (perm.map Prod.fst).nodup_iff.1 distinct
  rw [List.map_cons, List.nodup_cons, named] at distinct'
  have gone : unspent [id] (entry :: after) = after := by
    rw [unspent, List.filter_cons_of_neg (by simp [named])]
    apply List.filter_eq_self.2
    intro e member
    have other : e.1 ≠ id := by
      rintro rfl
      exact distinct'.1 (List.mem_map_of_mem member)
    simpa using other
  have filtered : (unspent [id] before).Perm (unspent [id] (entry :: after)) := perm.filter _
  rw [gone] at filtered
  exact filtered.symm

/-- What is added under fresh identifiers is not spent. -/
theorem unspent_append_fresh {α : Type} {spent : List UInt32} {l new : List (UInt32 × α)}
    (distinct : ((l ++ new).map Prod.fst).Nodup) (known : ∀ id ∈ spent, ∃ e ∈ l, e.1 = id) :
    unspent spent (l ++ new) = unspent spent l ++ new := by
  rw [List.map_append, List.nodup_append] at distinct
  have all : new.filter (fun e => !spent.contains e.1) = new := by
    apply List.filter_eq_self.2
    intro e member
    have fresh : e.1 ∉ spent := by
      intro named
      obtain ⟨old, there, same⟩ := known _ named
      exact distinct.2.2 old.1 (List.mem_map_of_mem there) e.1 (List.mem_map_of_mem member) same
    simpa using fresh
  rw [unspent, List.filter_append, all, unspent]

/-! ## Midway through a schedule -/

/-- `t` is `u` less the one-time keys of the bundles `done`, and `u` still has
every one-time key of `s`. -/
structure Midway (s u t : PrekeyStore Secret) (done : List PublishedBundle) : Prop where
  bare : bare t = bare u
  oneTime : t.oneTime.Perm (unspent (done.map PublishedBundle.oneTimePrekeyId) u.oneTime)
  kemOneTime : t.kemOneTime.Perm (unspent (done.map PublishedBundle.kemPrekeyId) u.kemOneTime)
  curveKept : ∀ e ∈ s.oneTime, e ∈ u.oneTime
  kemKept : ∀ e ∈ s.kemOneTime, e ∈ u.kemOneTime

variable {done : List PublishedBundle}

/-- An operation that does not look at the pools takes the two stores along. -/
theorem Midway.adds (midway : Midway s u t done) (members : ∀ b ∈ done, b ∈ s.publishOneTimeBatch p)
    {op : Op} (front : ∀ curve kem x,
      step p (withFront curve kem x) op = withFront curve kem (step p x op))
    (valid : Valid p (step p u op)) : Midway s (step p u op) (step p t op) done := by
  have left : step p t op = withFront t.oneTime t.kemOneTime (step p (Store.bare u) op) := by
    conv_lhs => rw [← withFront_bare t, midway.bare, front]
  have right : step p u op = withFront u.oneTime u.kemOneTime (step p (Store.bare u) op) := by
    conv_lhs => rw [← withFront_bare u, front]
  obtain ⟨curve, kem⟩ := valid.pools_nodup
  rw [right] at curve kem ⊢
  rw [left]
  generalize step p (Store.bare u) op = added at curve kem ⊢
  have curveKnown : ∀ id ∈ done.map PublishedBundle.oneTimePrekeyId, ∃ e ∈ u.oneTime, e.1 = id := by
    intro id named
    obtain ⟨b, member, rfl⟩ := List.mem_map.1 named
    obtain ⟨e, there, same⟩ := (mem_batch (members b member)).1
    exact ⟨e, midway.curveKept e there, same⟩
  have kemKnown : ∀ id ∈ done.map PublishedBundle.kemPrekeyId, ∃ e ∈ u.kemOneTime, e.1 = id := by
    intro id named
    obtain ⟨b, member, rfl⟩ := List.mem_map.1 named
    obtain ⟨e, there, same⟩ := (mem_batch (members b member)).2
    exact ⟨e, midway.kemKept e there, same⟩
  constructor
  · rfl
  · show (t.oneTime ++ added.oneTime).Perm (unspent _ (u.oneTime ++ added.oneTime))
    rw [unspent_append_fresh curve curveKnown]
    exact midway.oneTime.append_right _
  · show (t.kemOneTime ++ added.kemOneTime).Perm (unspent _ (u.kemOneTime ++ added.kemOneTime))
    rw [unspent_append_fresh kem kemKnown]
    exact midway.kemOneTime.append_right _
  · exact fun e there => List.mem_append_left _ (midway.curveKept e there)
  · exact fun e there => List.mem_append_left _ (midway.kemKept e there)

/-- An accepted message spends its bundle's keys. -/
theorem Midway.spends (midway : Midway s u t done) (valid : Valid p t) {b : PublishedBundle}
    {after : PrekeyStore Secret} (rest : Store.bare after = Store.bare t)
    (curve : Session.Removed b.oneTimePrekeyId t.oneTime after.oneTime)
    (kem : Session.Removed b.kemPrekeyId t.kemOneTime after.kemOneTime) :
    Midway s u after (done ++ [b]) := by
  obtain ⟨curveDistinct, kemDistinct⟩ := valid.pools_nodup
  constructor
  · exact rest.trans midway.bare
  · rw [List.map_append, unspent_append]
    exact (removed_perm curveDistinct curve).trans (midway.oneTime.filter _)
  · rw [List.map_append, unspent_append]
    exact (removed_perm kemDistinct kem).trans (midway.kemOneTime.filter _)
  · exact midway.curveKept
  · exact midway.kemKept

/-- The keys of a bundle not yet accepted are still there. -/
theorem Midway.held (midway : Midway s u t done) (valid : Valid p s)
    (members : ∀ b ∈ done, b ∈ s.publishOneTimeBatch p) {b : PublishedBundle}
    (member : b ∈ s.publishOneTimeBatch p) (fresh : b ∉ done) : Held s t b := by
  obtain ⟨curveOnce, kemOnce⟩ := batch_nodup valid
  obtain ⟨⟨curve, curveThere, curveNamed⟩, ⟨kem, kemThere, kemNamed⟩⟩ := mem_batch member
  constructor
  · intro _
    refine ⟨curve, midway.oneTime.mem_iff.2 (mem_unspent.2 ⟨midway.curveKept _ curveThere, ?_⟩),
      curveNamed⟩
    intro spent
    obtain ⟨other, before, same⟩ := List.mem_map.1 spent
    have equal := List.inj_on_of_nodup_map curveOnce (members other before) member
      (same.trans curveNamed)
    exact fresh (equal ▸ before)
  · intro _
    refine ⟨kem, midway.kemOneTime.mem_iff.2 (mem_unspent.2 ⟨midway.kemKept _ kemThere, ?_⟩),
      kemNamed⟩
    intro spent
    obtain ⟨other, before, same⟩ := List.mem_map.1 spent
    have equal := List.inj_on_of_nodup_map kemOnce (members other before) member
      (same.trans kemNamed)
    exact fresh (equal ▸ before)

/-! ## Accepting -/

/-- The store's owner opens the guest's message. -/
def Accepts (p : Primitives Secret) (owner : Identity) (g : Guest) (b : PublishedBundle)
    (t : PrekeyStore Secret) (rng : Rng) : Prop :=
  ∃ message store session rest, g.message p owner b = some message ∧
    establishResponder p owner t message rng = (store, .ok (session, g.plaintext), rest) ∧
    session.peerIdentityPublic = g.identity.public p

/-- **A batch message is opened** while the bundle's keys are held, and spends
exactly these. -/
theorem batch_opens (dhHonest : p.dh.Honest) (agrees : p.dh.Agrees) (correct : p.xed.Correct p.dh)
    (kemHonest : p.kem.Honest) (incHonest : p.incKem.Honest) (inverts : p.aead.Inverts)
    (reached : StoreOf p owner s) {b : PublishedBundle} (member : b ∈ s.publishOneTimeBatch p)
    {ops : List Op} (signedOnce : replaced (step p) PrekeyStore.signedPrekeyId s ops ≤ 1)
    (held : Held s (run p s ops) b) (g : Guest) :
    ∃ message, g.message p owner b = some message ∧ ∀ rng, ∃ r session rest,
      respond p owner (run p s ops) message = .ok r ∧
      establishResponder p owner (run p s ops) message rng =
        (spend (run p s ops) r, .ok (session, g.plaintext), rest) ∧
      session.peerIdentityPublic = g.identity.public p ∧
      r.lastResort = false ∧ r.decoded.kemPrekeyId = b.kemPrekeyId ∧
      r.decoded.oneTimePrekeyId = b.oneTimePrekeyId := by
  obtain ⟨ok, owned⟩ := reached.ok dhHonest correct kemHonest
  obtain ⟨keys, offers, names⟩ := (Published.batch member).offers ok.valid ok.signed owned
  have oneTime : b.kemPrekeyId ≠ s.kemId := (ok.valid.kemOneTime_apart (mem_batch member).2).1
  have later := restorable_run correct kemHonest ok ops
  have dead : (run p s ops).isLastResort b.kemPrekeyId = false := by
    obtain ⟨current, retired⟩ := later.valid.kemOneTime_apart (held.kem oneTime)
    simp [PrekeyStore.isLastResort, current, retired]
  obtain ⟨slot, answers⟩ := answers_run correct kemHonest ok names signedOnce
    (fun current => absurd current oneTime) held fun live => by simp [dead] at live
  rw [dead] at answers
  obtain ⟨ephemeral, ratchetPrivate, kemCiphertext, ss, sk, dhOut, rest, initiated, accepted⟩ :=
    Session.establishInitiatorFor_offers offers dhHonest agrees kemHonest g.identity g.drawn
  obtain ⟨sent, agMsg, rest', encrypted⟩ := Session.initiatorSession_encrypt incHonest g.identity b
    sk ephemeral ratchetPrivate dhOut kemCiphertext g.plaintext g.drawn'
  have message : g.message p owner b = some (Session.initialMessage p g.identity b ephemeral
      ratchetPrivate kemCiphertext sk dhOut agMsg g.plaintext) := by
    unfold Guest.message firstMessageTo
    rw [accepted]
    simp only [encrypted]
    rfl
  have fresh : Session.responderReplayFingerprint p (run p s ops) b.kemPrekeyId sk false =
      .ok none := by simp [Session.responderReplayFingerprint]
  refine ⟨_, message, fun rng => ?_⟩
  obtain ⟨r, session, rng', responded, opened, facts, -, theirs, -⟩ :=
    Session.establishResponder_answers dhHonest agrees inverts offers initiated answers fresh
      agMsg g.plaintext rng
  exact ⟨r, session, rng', responded, opened, theirs, facts.2.1, facts.2.2.1, facts.2.2.2⟩

/-- Spending one-time keys touches the pools only. -/
theorem bare_spend {message : Bytes} {r : Session.Responded Secret}
    (responded : respond p owner t message = .ok r) (oneTime : r.lastResort = false) :
    bare (spend t r) = bare t := by
  have spent := Session.spend_spent responded
  have seen := spent.lastResortSeen
  rw [oneTime, if_neg Bool.false_ne_true] at seen
  have others := congrArg bare spent.others
  rw [← others]
  simp only [bare, ← seen]

/-- **Where a schedule stands**: what its refills and its rotation alone would
have left, less the keys of the bundles accepted. -/
theorem midway_run (dhHonest : p.dh.Honest) (agrees : p.dh.Agrees) (correct : p.xed.Correct p.dh)
    (kemHonest : p.kem.Honest) (incHonest : p.incKem.Honest) (inverts : p.aead.Inverts)
    (reached : StoreOf p owner s) {l : List BatchOp} (schedule : Schedule p owner guests s l) :
    Midway s (runBatch p owner guests s (others l)) (runBatch p owner guests s l) (accepted l) := by
  have ok := (reached.ok dhHonest correct kemHonest).1
  have valid : ∀ l, Valid p (runBatch p owner guests s l) := fun l =>
    (restorable_run correct kemHonest ok _).valid
  induction l using List.reverseRecOn with
  | nil =>
      refine ⟨rfl, ?_, ?_, fun _ there => there, fun _ there => there⟩
      · simp [unspent, runBatch, others, run, accepted]
      · simp [unspent, runBatch, others, run, accepted]
  | append_singleton front op ih =>
      have midway := ih schedule.front
      have members := schedule.front.members
      -- a refill or rotation is one of the others, and accepts nothing
      have added : op.accepted = none →
          (∀ curve kem x, step p (withFront curve kem x) (op.op p owner guests) =
            withFront curve kem (step p x (op.op p owner guests))) →
          Midway s (runBatch p owner guests s (others (front ++ [op])))
            (runBatch p owner guests s (front ++ [op])) (accepted (front ++ [op])) := by
        intro none_ same
        have kept : others (front ++ [op]) = others front ++ [op] := by simp [others, none_]
        have taken : accepted (front ++ [op]) = accepted front := by simp [accepted, none_]
        have next := valid (others front ++ [op])
        rw [kept, taken, runBatch_append, runBatch_append]
        rw [runBatch_append] at next
        exact midway.adds members same next
      cases op with
      | replenish identity count rng =>
          apply added rfl
          intro curve kem x
          exact replenish_withFront curve kem x identity count rng
      | rotateSignedPrekey identity rng =>
          apply added rfl
          intro curve kem x
          exact rotateSignedPrekey_withFront curve kem x identity rng
      | accept b rng =>
          obtain ⟨member, fresh⟩ := schedule.last
          have held := midway.held ok.valid members member fresh
          obtain ⟨message, sent, opens⟩ := batch_opens dhHonest agrees correct kemHonest incHonest
            inverts reached member schedule.front.rotated held (guests b)
          obtain ⟨r, session, rest, responded, opened, -, oneTime, kem, curve⟩ := opens rng
          have kept : others (front ++ [.accept b rng]) = others front := by
            simp [others, BatchOp.accepted]
          have taken : accepted (front ++ [.accept b rng]) = accepted front ++ [b] := by
            simp [accepted, BatchOp.accepted]
          have left : runBatch p owner guests s (front ++ [.accept b rng]) =
              spend (runBatch p owner guests s front) r := by
            rw [runBatch_append]
            show (establishResponder p owner _ (((guests b).message p owner b).getD []) rng).1 = _
            rw [sent, Option.getD_some]
            exact congrArg Prod.fst opened
          have spent := Session.spend_spent responded
          have present : b.oneTimePrekeyId ≠ absentId := by
            obtain ⟨e, there, same⟩ := (mem_batch member).1
            have named : e.1 ∈ s.ids :=
              List.mem_append_left _ (List.mem_append_right _ (List.mem_map_of_mem there))
            exact same ▸ (ok.valid.numbered _ named).1
          have kemSpent := spent.kemOneTime
          have curveSpent := spent.oneTime
          rw [oneTime, if_neg Bool.false_ne_true, kem] at kemSpent
          rw [curve, if_neg present] at curveSpent
          rw [kept, taken, left]
          exact midway.spends (valid front) (bare_spend responded oneTime) curveSpent kemSpent

/-- The same keys, in whatever order the pools hold them. -/
structure SameKeys (t t' : PrekeyStore Secret) : Prop where
  oneTime : t.oneTime.Perm t'.oneTime
  kemOneTime : t.kemOneTime.Perm t'.kemOneTime
  rest : bare t = bare t'

/-- **The batch is order-independent.**  For the batch of any store reached: no
two bundles share a one-time identifier of either kind; every guest has a first
message for the bundle it is given; in any schedule that accepts bundles of the
batch, each once, with refills and at most one new signed prekey in between, every
message is opened when its turn comes; and two schedules that accept the same
bundles around the same refills and rotation end with the same keys. -/
theorem batch_order_independent (dhHonest : p.dh.Honest) (agrees : p.dh.Agrees)
    (correct : p.xed.Correct p.dh) (kemHonest : p.kem.Honest) (incHonest : p.incKem.Honest)
    (inverts : p.aead.Inverts) (reached : StoreOf p owner s) (guests : PublishedBundle → Guest) :
    ((s.publishOneTimeBatch p).map PublishedBundle.oneTimePrekeyId).Nodup ∧
    ((s.publishOneTimeBatch p).map PublishedBundle.kemPrekeyId).Nodup ∧
    (∀ b ∈ s.publishOneTimeBatch p, ((guests b).message p owner b).isSome = true) ∧
    ∀ schedule, Schedule p owner guests s schedule →
      (∀ before b rng after, schedule = before ++ .accept b rng :: after →
        Accepts p owner (guests b) b (runBatch p owner guests s before) rng) ∧
      ∀ schedule', Schedule p owner guests s schedule' →
        (accepted schedule).Perm (accepted schedule') → others schedule = others schedule' →
        SameKeys (runBatch p owner guests s schedule) (runBatch p owner guests s schedule') := by
  have ok := (reached.ok dhHonest correct kemHonest).1
  obtain ⟨curveOnce, kemOnce⟩ := batch_nodup ok.valid
  have midway := fun {l : List BatchOp} (schedule : Schedule p owner guests s l) =>
    midway_run dhHonest agrees correct kemHonest incHonest inverts reached schedule
  have opens := fun {l : List BatchOp} {b : PublishedBundle}
      (schedule : Schedule p owner guests s l) (member : b ∈ s.publishOneTimeBatch p)
      (fresh : b ∉ accepted l) =>
    batch_opens dhHonest agrees correct kemHonest incHonest inverts reached member schedule.rotated
      ((midway schedule).held ok.valid schedule.members member fresh) (guests b)
  refine ⟨curveOnce, kemOnce, ?_, fun schedule chosen => ⟨?_, ?_⟩⟩
  · intro b member
    have start : Schedule p owner guests s [] := ⟨by simp [accepted], List.nodup_nil, Nat.zero_le _⟩
    obtain ⟨message, sent, -⟩ := opens start member List.not_mem_nil
    rw [sent, Option.isSome_some]
  · rintro before b rng after rfl
    obtain ⟨member, fresh⟩ := chosen.last
    obtain ⟨message, sent, opened⟩ := opens chosen.front member fresh
    obtain ⟨r, session, rest, -, opened, theirs, -⟩ := opened rng
    exact ⟨message, _, session, rest, sent, opened, theirs⟩
  · intro schedule' chosen' same around
    have first := midway chosen
    have second := midway chosen'
    rw [← around] at second
    have filtered : ∀ {α : Type} (f : PublishedBundle → UInt32) (l : List (UInt32 × α)),
        unspent ((accepted schedule).map f) l = unspent ((accepted schedule').map f) l := by
      intro α f l
      apply List.filter_congr
      intro e _
      rw [Bool.eq_iff_iff]
      simp only [Bool.not_eq_true', List.contains_eq_mem, decide_eq_false_iff_not,
        (same.map f).mem_iff]
    constructor
    · have both := first.oneTime
      rw [filtered] at both
      exact both.trans second.oneTime.symm
    · have both := first.kemOneTime
      rw [filtered] at both
      exact both.trans second.kemOneTime.symm
    · exact first.bare.trans second.bare.symm

namespace Served

def host : Identity := ⟨Vector.replicate 32 7⟩

def store : PrekeyStore Secret := (createPrekeys Sample.primitives host 2 fun _ => 1).1

/-- The two bundles of the batch. -/
def newest : PublishedBundle :=
  (store.publishOneTimeBatch Sample.primitives).headD (store.publish Sample.primitives)

def oldest : PublishedBundle :=
  (store.publishOneTimeBatch Sample.primitives).getLastD (store.publish Sample.primitives)

def guest (b : PublishedBundle) : Guest :=
  ⟨⟨Vector.replicate 32 5⟩, [0x68, 0x69], fun _ => b.kemPrekeyId.toUInt8, fun _ => 7⟩

def refill : BatchOp := .replenish host 1 fun _ => 3
def rotation : BatchOp := .rotateSignedPrekey host fun _ => 2

def forth : List BatchOp := [.accept newest fun _ => 8, refill, rotation, .accept oldest fun _ => 9]
def back : List BatchOp := [refill, .accept oldest fun _ => 9, rotation, .accept newest fun _ => 8]

theorem bundles_mem : newest ∈ store.publishOneTimeBatch Sample.primitives ∧
    oldest ∈ store.publishOneTimeBatch Sample.primitives := by decide +kernel

theorem bundles_ne : newest ≠ oldest := by decide +kernel

theorem forth_schedule : Schedule Sample.primitives host guest store forth := by
  have both : accepted forth = [newest, oldest] := rfl
  refine ⟨?_, ?_, by decide +kernel⟩
  · rw [both]
    simpa using bundles_mem
  · rw [both]
    simpa using bundles_ne

theorem back_schedule : Schedule Sample.primitives host guest store back := by
  have both : accepted back = [oldest, newest] := rfl
  refine ⟨?_, ?_, by decide +kernel⟩
  · rw [both]
    simpa using bundles_mem.symm
  · rw [both]
    simpa using bundles_ne.symm

/-- Both bundles accepted around a refill and a rotation, in either order. -/
theorem batch_order_independent_sample :
    Accepts Sample.primitives host (guest oldest) oldest
      (runBatch Sample.primitives host guest store (forth.take 3)) (fun _ => 9) ∧
    SameKeys (runBatch Sample.primitives host guest store forth)
      (runBatch Sample.primitives host guest store back) := by
  have reached : StoreOf Sample.primitives host store := ⟨2, fun _ => 1, [], rfl⟩
  obtain ⟨-, -, -, schedules⟩ := batch_order_independent (Sample.dh_honest id) (Sample.dh_agrees id)
    (Sample.xed_correct id) (Sample.kem_honest id) (Sample.incKem_honest id) Sample.aead_inverts
    reached guest
  obtain ⟨opens, same⟩ := schedules forth forth_schedule
  constructor
  · exact opens (forth.take 3) oldest (fun _ => 9) [] rfl
  · apply same back back_schedule
    · exact List.Perm.swap oldest newest []
    · rfl

end Served

end Tacenta.Store
