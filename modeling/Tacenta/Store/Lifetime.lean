/-
# Tacenta.Store.Lifetime -- a prekey store over its whole life

A store is created once and then refilled, rotated, published, spent by initial
messages and reloaded, in any order.  `Op` is one of these, with the randomness
it draws; `step` performs it and `run` a list of them.

* `restorable_run`: every store reached keeps its invariants, and reloading it
  changes nothing;
* `issued_nodup`: over a whole run no identifier is issued twice, and none is
  the absent marker or `u32::MAX`;
* `step_entries`: an identifier names one key for as long as it names any.
-/
import Tacenta.Session.Responder
import Tacenta.Store.Codec

set_option autoImplicit false

namespace Tacenta.Store

open Tacenta.Wire (absentId)
open Tacenta.Session (Responded respond spend establishResponder establishResponder_cases
  spend_spent Spent Removed Responds respond_ok responderKemSlot_ok responderReplayFingerprint_ok)

section Generic

variable {K : Type} {p : Primitives K} {s : PrekeyStore K} {identity : Identity}

/-! ## Spending -/

variable {message : Bytes} {r : Responded K}

theorem removed_ids {α : Type} {id : UInt32} {before after : List (UInt32 × α)}
    (removed : Removed id before after) :
    (after.map Prod.fst).Subperm (before.map Prod.fst) := by
  obtain ⟨entry, -, perm⟩ := removed
  exact ((List.sublist_cons_self _ _).map Prod.fst).subperm.trans (perm.map Prod.fst).symm.subperm

theorem removed_mem {α : Type} {id : UInt32} {before after : List (UInt32 × α)}
    (removed : Removed id before after) {e : UInt32 × α} (h : e ∈ after) : e ∈ before := by
  obtain ⟨entry, -, perm⟩ := removed
  exact perm.mem_iff.2 (List.mem_cons_of_mem _ h)

/-- Spending names no key the store did not name before, and moves neither the
counter nor the keys that are not one-time. -/
structure Spends (before after : PrekeyStore K) : Prop where
  identityPublic : after.identityPublic = before.identityPublic
  signedPrekeySecret : after.signedPrekeySecret = before.signedPrekeySecret
  signedPrekeyId : after.signedPrekeyId = before.signedPrekeyId
  signedPrekeySig : after.signedPrekeySig = before.signedPrekeySig
  kem : after.kem = before.kem
  kemId : after.kemId = before.kemId
  kemSig : after.kemSig = before.kemSig
  previousSignedPrekey : after.previousSignedPrekey = before.previousSignedPrekey
  previousKem : after.previousKem = before.previousKem
  nextId : after.nextId = before.nextId
  blocked : after.legacyLastResortBlocked = before.legacyLastResortBlocked
  kemOneTime : ∀ e ∈ after.kemOneTime, e ∈ before.kemOneTime
  ids : after.ids.Subperm before.ids

theorem spend_spends [DecidableEq K] (responded : respond p identity s message = .ok r) :
    Spends s (spend s r) := by
  have spent := spend_spent responded
  have others := spent.others
  have kemOneTime : (∀ e ∈ (spend s r).kemOneTime, e ∈ s.kemOneTime) ∧
      ((spend s r).kemOneTime.map Prod.fst).Subperm (s.kemOneTime.map Prod.fst) := by
    have := spent.kemOneTime
    split at this
    · rw [this]
      exact ⟨fun _ h => h, List.Subperm.refl _⟩
    · exact ⟨fun _ h => removed_mem this h, removed_ids this⟩
  have oneTime : ((spend s r).oneTime.map Prod.fst).Subperm (s.oneTime.map Prod.fst) := by
    have := spent.oneTime
    split at this
    · rw [this]
    · exact removed_ids this
  have field := fun {β : Type} (f : PrekeyStore K → β) => congrArg f others
  have signedPrekeyId := field PrekeyStore.signedPrekeyId
  have kemId := field PrekeyStore.kemId
  have previousSignedPrekey := field PrekeyStore.previousSignedPrekey
  have previousKem := field PrekeyStore.previousKem
  simp only at signedPrekeyId kemId previousSignedPrekey previousKem
  refine ⟨field PrekeyStore.identityPublic, field PrekeyStore.signedPrekeySecret,
    signedPrekeyId, field PrekeyStore.signedPrekeySig, field PrekeyStore.kem,
    kemId, field PrekeyStore.kemSig, previousSignedPrekey, previousKem,
    field PrekeyStore.nextId, field PrekeyStore.legacyLastResortBlocked, kemOneTime.1, ?_⟩
  unfold PrekeyStore.ids
  rw [signedPrekeyId, kemId, previousSignedPrekey, previousKem]
  exact ((List.Subperm.refl _).append oneTime).append kemOneTime.2

theorem Spends.isLastResort {before after : PrekeyStore K} (h : Spends before after) (id : UInt32) :
    after.isLastResort id = before.isLastResort id := by
  unfold PrekeyStore.isLastResort PrekeyStore.previousKemId
  rw [h.kemId, h.previousKem]

theorem Valid.spend [DecidableEq K] (valid : Valid p s)
    (responded : respond p identity s message = .ok r) :
    Valid p (spend s r) := by
  have spends := spend_spends responded
  have seen := (spend_spent responded).lastResortSeen
  obtain ⟨slot, ephemeral, oneTimeKey, ss, steps⟩ := respond_ok responded
  have lastResort := (responderKemSlot_ok steps.kemSlot).1
  have replay := responderReplayFingerprint_ok steps.replay
  refine ⟨spends.identityPublic ▸ valid.identity, fun id member => ?_, ?_, ?_, ?_,
    Session.withinBudget_spend valid.budget responded, ?_, spends.blocked ▸ valid.blocked_once⟩
  · rw [spends.nextId]
    exact valid.numbered id (spends.ids.subset member)
  · obtain ⟨l, perm, sub⟩ := spends.ids
    exact perm.nodup_iff.1 (sub.nodup valid.distinct)
  · intro entry member
    rw [spends.isLastResort]
    rw [seen] at member
    split at member
    · rename_i last
      rcases List.mem_append.1 member with old | new
      · exact valid.tagged entry old
      · rw [List.mem_singleton] at new
        rw [new, ← lastResort, last]
    · exact valid.tagged entry member
  · rw [seen]
    split
    · rename_i last
      obtain ⟨no, -⟩ | ⟨-, -, fresh, -⟩ := replay
      · simp [last] at no
      · rw [List.pairwise_append]
        refine ⟨valid.recorded_once, List.pairwise_singleton _ _, fun a ha b hb => ?_⟩
        rw [List.mem_singleton] at hb
        rw [hb]
        exact fresh a ha
    · exact valid.recorded_once
  · intro id member
    rw [spends.isLastResort]
    rw [spends.blocked] at member
    exact valid.blocked_live id member

theorem Signed.spend [DecidableEq K] (signed : Signed p s)
    (responded : respond p identity s message = .ok r) :
    Signed p (spend s r) := by
  have spends := spend_spends responded
  constructor
  · rw [spends.identityPublic, spends.signedPrekeySecret, spends.signedPrekeySig]
    exact signed.signedPrekey
  · rw [spends.identityPublic, spends.kem, spends.kemSig]
    exact signed.kem
  · rw [spends.identityPublic]
    exact fun e member => signed.kemOneTime e (spends.kemOneTime e member)
  · rw [spends.identityPublic, spends.previousSignedPrekey]
    exact signed.previousSignedPrekey
  · rw [spends.identityPublic, spends.previousKem]
    exact signed.previousKem

end Generic

/-! ## The operations -/

/-- One operation on a store, with the randomness it draws. -/
inductive Op where
  | publish
  | replenish (identity : Identity) (count : Nat) (rng : Rng)
  | rotateSignedPrekey (identity : Identity) (rng : Rng)
  | rotateKem (identity : Identity) (rng : Rng)
  | establishResponder (identity : Identity) (message : Bytes) (rng : Rng)
  | reload

variable {p : Primitives Secret} {s : PrekeyStore Secret}

/-- `to_bytes`, then `from_bytes`; a refused reload leaves the store in place. -/
def reloaded (p : Primitives Secret) (s : PrekeyStore Secret) : PrekeyStore Secret :=
  match PrekeyStore.fromBytes p s.toBytes with
  | .ok s => s
  | .error _ => s

/-- The store an operation leaves. -/
def step (p : Primitives Secret) (s : PrekeyStore Secret) : Op → PrekeyStore Secret
  | .publish => s
  | .replenish identity count rng => (s.replenish p identity count rng).1
  | .rotateSignedPrekey identity rng => (s.rotateSignedPrekey p identity rng).1
  | .rotateKem identity rng => (s.rotateKem p identity rng).1
  | .establishResponder identity message rng => (establishResponder p identity s message rng).1
  | .reload => reloaded p s

/-- The store a run of operations leaves. -/
def run (p : Primitives Secret) (s : PrekeyStore Secret) (ops : List Op) : PrekeyStore Secret :=
  ops.foldl (step p) s

/-- **Every operation keeps the invariant and the signatures**, whether it
succeeds or refuses and whatever identity it is given. -/
theorem step_valid (correct : p.xed.Correct p.dh) (valid : Valid p s) (signed : Signed p s)
    (op : Op) : Valid p (step p s op) ∧ Signed p (step p s op) := by
  cases op with
  | publish => exact ⟨valid, signed⟩
  | replenish identity count rng =>
      exact ⟨valid.replenish identity count rng, signed.replenish correct identity count rng⟩
  | rotateSignedPrekey identity rng =>
      exact ⟨valid.rotateSignedPrekey identity rng, signed.rotateSignedPrekey correct identity rng⟩
  | rotateKem identity rng =>
      exact ⟨valid.rotateKem identity rng, signed.rotateKem correct identity rng⟩
  | establishResponder identity message rng =>
      rw [step]
      obtain ⟨e, rng', refused⟩ | ⟨r, session, plaintext, rng', responded, -, opened⟩ :=
        establishResponder_cases p identity s message rng
      · rw [refused]
        exact ⟨valid, signed⟩
      · rw [opened]
        exact ⟨valid.spend responded, signed.spend responded⟩
  | reload =>
      rw [step, reloaded]
      cases restored : PrekeyStore.fromBytes p s.toBytes with
      | error e => exact ⟨valid, signed⟩
      | ok restoredStore =>
          unfold PrekeyStore.fromBytes at restored
          split at restored
          · simp at restored
          · split at restored
            · simp at restored
            · split at restored
              · simp at restored
              · rename_i kept
                split at restored
                · simp at restored
                · rename_i verified
                  simp only [Except.ok.injEq] at restored
                  subst restored
                  simp only [Bool.not_eq_true, Bool.not_eq_false'] at kept verified
                  exact ⟨invariant_iff.1 kept, signaturesVerify_iff.1 verified⟩

/-! ## Identifiers name one key for life -/

/-- What an identifier names. -/
inductive Key where
  | signed (secret : Arr 32)
  | lastResort (pair : KeyPair)
  | oneTime (secret : Arr 32)
  | kemOneTime (pair : KeyPair)

/-- Every key of a store under its identifier. -/
def entries {K : Type} (s : PrekeyStore K) : List (UInt32 × Key) :=
  [(s.signedPrekeyId, .signed s.signedPrekeySecret), (s.kemId, .lastResort s.kem)] ++
    (s.previousSignedPrekey.map fun r => (r.2.1, Key.signed r.1)).toList ++
    (s.previousKem.map fun r => (r.2.1, Key.lastResort r.1)).toList ++
    (s.oneTime.map fun e => (e.1, Key.oneTime e.2)) ++
    s.kemOneTime.map fun e => (e.1, Key.kemOneTime e.2.1)

theorem entries_ids {K : Type} (s : PrekeyStore K) : (entries s).map Prod.fst = s.ids := by
  have signed : (s.previousSignedPrekey.map fun r => (r.2.1, Key.signed r.1)).toList.map Prod.fst =
      (s.previousSignedPrekey.map fun r => r.2.1).toList := by
    cases s.previousSignedPrekey <;> rfl
  have kem : (s.previousKem.map fun r => (r.2.1, Key.lastResort r.1)).toList.map Prod.fst =
      (s.previousKem.map fun r => r.2.1).toList := by
    cases s.previousKem <;> rfl
  simp only [entries, PrekeyStore.ids, List.map_append, List.map_map, List.map_cons, List.map_nil,
    signed, kem]
  rfl

/-- An identifier of a store names one key. -/
theorem Valid.entries_inj {K : Type} {p : Primitives K} {s : PrekeyStore K}
    (valid : Valid p s) {a b : UInt32 × Key} (ha : a ∈ entries s) (hb : b ∈ entries s)
    (same : a.1 = b.1) : a = b := by
  have distinct := valid.distinct
  rw [← entries_ids] at distinct
  exact List.inj_on_of_nodup_map distinct ha hb same

/-- A step that mints only from the counter: what a store names after it, it
named before, or the counter had not reached. -/
structure Mints (before after : PrekeyStore Secret) : Prop where
  climbs : before.nextId ≤ after.nextId
  entries : ∀ e ∈ entries after, e ∈ entries before ∨ before.nextId ≤ e.1

theorem Mints.refl (s : PrekeyStore Secret) : Mints s s :=
  ⟨UInt32.le_refl _, fun _ h => .inl h⟩

theorem Mints.trans {a b c : PrekeyStore Secret} (first : Mints a b) (second : Mints b c) :
    Mints a c := by
  refine ⟨UInt32.le_trans first.climbs second.climbs, fun e h => ?_⟩
  rcases second.entries e h with old | new
  · exact first.entries e old
  · exact .inr (UInt32.le_trans first.climbs new)

theorem le_of_climbs {a b : UInt32} (climbs : a.checkedAdd 1 = some b) : a ≤ b := by
  have := nextId_of_checkedAdd climbs
  rw [UInt32.le_iff_toNat_le]
  omega

theorem Mints.addCurve (s : PrekeyStore Secret) {next : UInt32}
    (climbs : s.nextId.checkedAdd 1 = some next) (secret : Arr 32) :
    Mints s (addCurve s next secret) := by
  refine ⟨le_of_climbs climbs, fun e h => ?_⟩
  simp only [Store.entries, Store.addCurve, List.map_append, List.mem_append, List.map_cons,
    List.map_nil, List.mem_singleton] at h ⊢
  rcases h with (front | old | rfl) | kem
  · exact .inl (.inl (.inl front))
  · exact .inl (.inl (.inr old))
  · exact .inr (UInt32.le_refl _)
  · exact .inl (.inr kem)

theorem Mints.addKem (s : PrekeyStore Secret) {next : UInt32}
    (climbs : s.nextId.checkedAdd 1 = some next) (entry : KeyPair × Arr 64) :
    Mints s (addKem s next entry) := by
  refine ⟨le_of_climbs climbs, fun e h => ?_⟩
  simp only [Store.entries, Store.addKem, List.map_append, List.mem_append, List.map_cons,
    List.map_nil, List.mem_singleton] at h ⊢
  rcases h with front | old | rfl
  · exact .inl (.inl front)
  · exact .inl (.inr old)
  · exact .inr (UInt32.le_refl _)

theorem Mints.replenish (s : PrekeyStore Secret) (identity : Identity) (count : Nat) (rng : Rng) :
    Mints s (s.replenish p identity count rng).1 :=
  replenish_induction p s identity (motive := Mints s) (Mints.refl s)
    (fun t _ secret h climbs => h.trans (Mints.addCurve t climbs secret))
    (fun _ t _ _ h climbs => h.trans (Mints.addKem t climbs _)) count rng

theorem Mints.rotateSignedPrekey (s : PrekeyStore Secret) (identity : Identity) (rng : Rng) :
    Mints s (s.rotateSignedPrekey p identity rng).1 := by
  rcases rotateSignedPrekey_cases p s identity rng with same | ⟨next, climbs, -, rotated⟩
  · rw [same]
    exact Mints.refl s
  rw [rotated]
  generalize (mintSignedPrekey p identity rng).1 = minted
  refine ⟨le_of_climbs climbs, fun e h => ?_⟩
  simp only [Store.entries, List.mem_append, List.mem_cons, List.not_mem_nil, or_false,
    Option.map_some, Option.toList_some] at h ⊢
  rcases h with ((((rfl | kem) | signed) | previous) | one) | kems
  · exact .inr (UInt32.le_refl _)
  · exact .inl (.inl (.inl (.inl (.inl (.inr kem)))))
  · exact .inl (.inl (.inl (.inl (.inl (.inl signed)))))
  · exact .inl (.inl (.inl (.inr previous)))
  · exact .inl (.inl (.inr one))
  · exact .inl (.inr kems)

theorem Mints.rotateKem (s : PrekeyStore Secret) (identity : Identity) (rng : Rng) :
    Mints s (s.rotateKem p identity rng).1 := by
  rcases rotateKem_cases p s identity rng with same | ⟨next, climbs, -, rotated⟩
  · rw [same]
    exact Mints.refl s
  rw [rotated]
  generalize (mintKem p identity rng).1 = minted
  refine ⟨le_of_climbs climbs, fun e h => ?_⟩
  simp only [Store.entries, List.mem_append, List.mem_cons, List.not_mem_nil, or_false,
    Option.map_some, Option.toList_some] at h ⊢
  rcases h with ((((signed | rfl) | previous) | kem) | one) | kems
  · exact .inl (.inl (.inl (.inl (.inl (.inl signed)))))
  · exact .inr (UInt32.le_refl _)
  · exact .inl (.inl (.inl (.inl (.inr previous))))
  · exact .inl (.inl (.inl (.inl (.inl (.inr kem)))))
  · exact .inl (.inl (.inr one))
  · exact .inl (.inr kems)

theorem Mints.spend {identity : Identity} {message : Bytes} {r : Responded Secret}
    (responded : respond p identity s message = .ok r) : Mints s (spend s r) := by
  have spends := spend_spends responded
  have spent := spend_spent responded
  have oneTime : ∀ e ∈ (Session.spend s r).oneTime, e ∈ s.oneTime := by
    have := spent.oneTime
    split at this
    · rw [this]
      exact fun _ h => h
    · exact fun _ h => removed_mem this h
  refine ⟨spends.nextId ▸ UInt32.le_refl _, fun e h => .inl ?_⟩
  simp only [Store.entries, List.mem_append, List.mem_map] at h ⊢
  rw [spends.signedPrekeyId, spends.signedPrekeySecret, spends.kemId, spends.kem,
    spends.previousSignedPrekey, spends.previousKem] at h
  rcases h with (front | ⟨c, member, rfl⟩) | ⟨k, member, rfl⟩
  · exact .inl (.inl front)
  · exact .inl (.inr ⟨c, oneTime c member, rfl⟩)
  · exact .inr ⟨k, spends.kemOneTime k member, rfl⟩

/-! ## Restoring -/

theorem pruned_blocked_sorted {s : PrekeyStore Secret}
    (sorted : s.legacyLastResortBlocked.Pairwise (· < ·)) : s.pruned.2.Pairwise (· < ·) :=
  sorted.sublist (pruned_sublist s).2

/-- What a restore needs beyond the two checks of the store itself. -/
structure Readable (p : Primitives Secret) (s : PrekeyStore Secret) : Prop where
  kem : p.kem.keyPairFromBytes s.kem.raw = some s.kem
  kemOneTime : ∀ entry ∈ s.kemOneTime, p.kem.keyPairFromBytes entry.2.1.raw = some entry.2.1
  previousKem : ∀ r ∈ s.previousKem, p.kem.keyPairFromBytes r.1.raw = some r.1
  blocked_sorted : s.legacyLastResortBlocked.Pairwise (· < ·)

theorem restorable_iff : Restorable p s ↔ Valid p s ∧ Signed p s ∧ Readable p s :=
  ⟨fun h => ⟨h.valid, h.signed, h.kem, h.kemOneTime, h.previousKem, h.blocked_sorted⟩,
    fun ⟨valid, signed, h⟩ => ⟨valid, signed, h.kem, h.kemOneTime, h.previousKem, h.blocked_sorted⟩⟩

theorem reloaded_eq (ok : Restorable p s) : reloaded p s = s := by
  rw [reloaded, fromBytes_toBytes ok]

theorem readable_step (honest : p.kem.Honest) (ok : Restorable p s) (op : Op) :
    Readable p (step p s op) := by
  obtain ⟨valid, signed, readable⟩ := restorable_iff.1 ok
  cases op with
  | publish => exact readable
  | reload => simpa [step, reloaded_eq ok] using readable
  | replenish identity count rng =>
      refine replenish_induction p s identity (motive := Readable p) readable
        (fun t next secret h _ => ⟨h.kem, h.kemOneTime, h.previousKem, h.blocked_sorted⟩)
        (fun _ t next rng h _ => ⟨h.kem, fun e member => ?_, h.previousKem, h.blocked_sorted⟩)
        count rng
      rcases List.mem_append.1 member with old | new
      · exact h.kemOneTime e old
      · rw [List.mem_singleton] at new
        rw [new]
        exact keyPairFromBytes_generate honest rng
  | rotateSignedPrekey identity rng =>
      rw [step]
      rcases rotateSignedPrekey_cases p s identity rng with same | ⟨next, -, -, rotated⟩
      · rw [same]
        exact readable
      · rw [rotated]
        exact ⟨readable.kem, readable.kemOneTime, readable.previousKem, readable.blocked_sorted⟩
  | rotateKem identity rng =>
      rw [step]
      rcases rotateKem_cases p s identity rng with same | ⟨next, -, -, rotated⟩
      · rw [same]
        exact readable
      · rw [rotated]
        refine ⟨keyPairFromBytes_generate honest rng, readable.kemOneTime, fun r hr => ?_,
          pruned_blocked_sorted readable.blocked_sorted⟩
        simp only [Option.mem_def, Option.some.injEq] at hr
        subst hr
        exact readable.kem
  | establishResponder identity message rng =>
      rw [step]
      obtain ⟨e, rng', refused⟩ | ⟨r, session, plaintext, rng', responded, -, opened⟩ :=
        establishResponder_cases p identity s message rng
      · rw [refused]
        exact readable
      · rw [opened]
        have spends := spend_spends responded
        exact ⟨spends.kem ▸ readable.kem,
          fun e member => readable.kemOneTime e (spends.kemOneTime e member),
          spends.previousKem ▸ readable.previousKem, spends.blocked ▸ readable.blocked_sorted⟩

/-- **The step lemma**: a restorable store stays restorable. -/
theorem restorable_step (correct : p.xed.Correct p.dh) (honest : p.kem.Honest)
    (ok : Restorable p s) (op : Op) : Restorable p (step p s op) :=
  restorable_iff.2 ⟨(step_valid correct ok.valid ok.signed op).1,
    (step_valid correct ok.valid ok.signed op).2, readable_step honest ok op⟩

/-- **The run lemma.** -/
theorem restorable_run (correct : p.xed.Correct p.dh) (honest : p.kem.Honest)
    (ok : Restorable p s) (ops : List Op) : Restorable p (run p s ops) := by
  induction ops generalizing s with
  | nil => exact ok
  | cons op rest ih => exact ih (restorable_step correct honest ok op)

theorem createPrekeys_restorable (dhHonest : p.dh.Honest) (correct : p.xed.Correct p.dh)
    (honest : p.kem.Honest) (identity : Identity) (count : Nat) (rng : Rng) :
    Restorable p (createPrekeys p identity count rng).1 := by
  refine restorable_iff.2 ⟨createPrekeys_valid dhHonest identity count rng,
    createPrekeys_signed correct identity count rng, keyPairFromBytes_generate honest _, ?_,
    by simp [createPrekeys], by simp [createPrekeys]⟩
  exact mintKemOneTime_all (motive := fun e => p.kem.keyPairFromBytes e.1.raw = some e.1)
    (fun rng => keyPairFromBytes_generate honest rng) _ _ _

/-- Every operation mints from the counter. -/
theorem step_mints (ok : Restorable p s) (op : Op) : Mints s (step p s op) := by
  cases op with
  | publish => exact Mints.refl s
  | reload => simpa [step, reloaded_eq ok] using Mints.refl s
  | replenish identity count rng => exact Mints.replenish s identity count rng
  | rotateSignedPrekey identity rng => exact Mints.rotateSignedPrekey s identity rng
  | rotateKem identity rng => exact Mints.rotateKem s identity rng
  | establishResponder identity message rng =>
      rw [step]
      obtain ⟨e, rng', refused⟩ | ⟨r, session, plaintext, rng', responded, -, opened⟩ :=
        establishResponder_cases p identity s message rng
      · rw [refused]
        exact Mints.refl s
      · rw [opened]
        exact Mints.spend responded

/-! ## Issuing -/

/-- The identifiers a step issued: those in the store after it and not before. -/
def issued (before after : PrekeyStore Secret) : List UInt32 :=
  after.ids.filter fun id => !before.ids.contains id

/-- The identifiers a run issued, step by step. -/
def issuedAlong (p : Primitives Secret) (s : PrekeyStore Secret) : List Op → List UInt32
  | [] => []
  | op :: rest => issued s (step p s op) ++ issuedAlong p (step p s op) rest

theorem mem_issued {before after : PrekeyStore Secret} (mints : Mints before after) {id : UInt32}
    (member : id ∈ issued before after) : before.nextId ≤ id := by
  simp only [issued, List.mem_filter, Bool.not_eq_true', List.contains_eq_mem,
    decide_eq_false_iff_not] at member
  obtain ⟨here, fresh⟩ := member
  rw [← entries_ids] at here fresh
  obtain ⟨e, he, rfl⟩ := List.mem_map.1 here
  rcases mints.entries e he with old | new
  · exact absurd (List.mem_map_of_mem old) fresh
  · exact new

/-- **No identifier is issued twice over a whole run**, none is the absent marker
and none is `u32::MAX`: continuing from any list of distinct identifiers below
the counter that covers the store's own. -/
theorem issuedAlong_nodup (correct : p.xed.Correct p.dh) (honest : p.kem.Honest)
    (ok : Restorable p s) (ops : List Op) {before : List UInt32} (distinct : before.Nodup)
    (below : ∀ id ∈ before, id ≠ absentId ∧ id < s.nextId) (covers : s.ids ⊆ before) :
    (before ++ issuedAlong p s ops).Nodup ∧
      ∀ id ∈ before ++ issuedAlong p s ops, id ≠ absentId ∧ id ≠ UInt32.ofNat (2 ^ 32 - 1) := by
  induction ops generalizing s before with
  | nil =>
      refine ⟨by simpa [issuedAlong] using distinct, fun id member => ?_⟩
      obtain ⟨present, less⟩ := below id (by simpa [issuedAlong] using member)
      refine ⟨present, fun h => ?_⟩
      have := s.nextId.toNat_lt
      rw [UInt32.lt_iff_toNat_lt, h] at less
      simp at less
      omega
  | cons op rest ih =>
      have next := restorable_step correct honest ok op
      have mints := step_mints ok op
      rw [issuedAlong, ← List.append_assoc]
      refine ih next ?_ ?_ ?_
      · rw [List.nodup_append]
        refine ⟨distinct, next.valid.distinct.filter _, fun a ha b hb same => ?_⟩
        have old := (below a ha).2
        have new := mem_issued mints hb
        rw [← same] at new
        exact absurd old (UInt32.not_lt.2 new)
      · intro id member
        rcases List.mem_append.1 member with old | new
        · obtain ⟨present, less⟩ := below id old
          exact ⟨present, UInt32.lt_of_lt_of_le less mints.climbs⟩
        · exact next.valid.numbered id (List.mem_filter.1 new).1
      · intro id member
        by_cases old : id ∈ s.ids
        · exact List.mem_append_left _ (covers old)
        · exact List.mem_append_right _ (List.mem_filter.2 ⟨member, by simpa using old⟩)

/-! ## Foreign identities and the end of the identifier space -/

/-- The operations that sign change nothing under an identity that is not the
store's. -/
theorem foreign_identity (s : PrekeyStore Secret) {identity : Identity}
    (foreign : identity.public p ≠ s.identityPublic) (count : Nat) (rng : Rng) :
    s.replenish p identity count rng = (s, rng) ∧ s.rotateSignedPrekey p identity rng = (s, rng) ∧
      s.rotateKem p identity rng = (s, rng) := by
  refine ⟨by simp [PrekeyStore.replenish, foreign], ?_, ?_⟩
  · unfold PrekeyStore.rotateSignedPrekey
    cases s.nextId.checkedAdd 1 <;> simp [foreign]
  · unfold PrekeyStore.rotateKem
    cases s.nextId.checkedAdd 1 <;> simp [foreign]

/-- At the end of the identifier space the rotations change nothing. -/
theorem rotate_exhausted {s : PrekeyStore Secret} (last : s.nextId = UInt32.ofNat (2 ^ 32 - 1))
    (identity : Identity) (rng : Rng) :
    s.rotateSignedPrekey p identity rng = (s, rng) ∧ s.rotateKem p identity rng = (s, rng) := by
  have stuck : s.nextId.checkedAdd 1 = none := by
    rw [last]
    decide
  simp [PrekeyStore.rotateSignedPrekey, PrekeyStore.rotateKem, stuck]

/-- What `replenish` did: it appended keys numbered from the counter on, moved
the counter past them, and touched nothing else. -/
def Refilled (before after : PrekeyStore Secret) : Prop :=
  before.nextId ≤ after.nextId ∧ ∃ curve kem,
    after = { before with
      nextId := after.nextId
      oneTime := before.oneTime ++ curve
      kemOneTime := before.kemOneTime ++ kem } ∧
    ∀ id ∈ curve.map Prod.fst ++ kem.map Prod.fst, before.nextId ≤ id ∧ id < after.nextId

theorem refilled_replenish (s : PrekeyStore Secret) (identity : Identity) (count : Nat) (rng : Rng) :
    Refilled s (s.replenish p identity count rng).1 := by
  refine replenish_induction p s identity (motive := Refilled s)
    ⟨UInt32.le_refl _, [], [], by simp, by simp⟩ ?_ ?_ count rng
  · rintro t next secret ⟨above, curve, kem, same, fresh⟩ climbs
    have past := nextId_of_checkedAdd climbs
    refine ⟨UInt32.le_trans above (le_of_climbs climbs), curve ++ [(t.nextId, secret)], kem, ?_, ?_⟩
    · rw [addCurve, same]
      simp
    · intro id member
      have cases_ : id = t.nextId ∨ id ∈ curve.map Prod.fst ++ kem.map Prod.fst := by
        simp only [List.map_append, List.map_cons, List.map_nil, List.mem_append,
          List.mem_singleton] at member ⊢
        tauto
      have less : t.nextId < (addCurve t next secret).nextId := by
        rw [UInt32.lt_iff_toNat_lt]
        simp only [addCurve]
        omega
      rcases cases_ with rfl | old
      · exact ⟨above, less⟩
      · exact ⟨(fresh id old).1, UInt32.lt_trans (fresh id old).2 less⟩
  · rintro - t next rng ⟨above, curve, kem, same, fresh⟩ climbs
    generalize (mintKem p identity rng).1 = entry
    have past := nextId_of_checkedAdd climbs
    refine ⟨UInt32.le_trans above (le_of_climbs climbs), curve,
      kem ++ [(t.nextId, entry.1, entry.2)], ?_, ?_⟩
    · rw [addKem, same]
      simp
    · intro id member
      have cases_ : id = t.nextId ∨ id ∈ curve.map Prod.fst ++ kem.map Prod.fst := by
        simp only [List.map_append, List.map_cons, List.map_nil, List.mem_append,
          List.mem_singleton] at member ⊢
        tauto
      have less : t.nextId < (addKem t next entry).nextId := by
        rw [UInt32.lt_iff_toNat_lt]
        simp only [addKem]
        omega
      rcases cases_ with rfl | old
      · exact ⟨above, less⟩
      · exact ⟨(fresh id old).1, UInt32.lt_trans (fresh id old).2 less⟩

end Tacenta.Store
