/-
# Tacenta.Store.Replay -- no initial message is accepted twice

A one-time key defends itself by being deleted; a last-resort key is defended by
the record, for as long as it can decrypt; and no identifier is issued again.
`Remembers` says what the store knows of one accepted handshake: a record entry
while its key is a live last-resort key, an absent one-time entry otherwise.
Every operation keeps it, so no handshake of a run is accepted again.
-/
import Tacenta.Store.Lifetime

set_option autoImplicit false

namespace Tacenta.Store

open Tacenta.Wire (absentId decodeInitial)
open Tacenta.Session (Responded respond spend establishResponder establishResponder_cases
  spend_spent Spent Responds respond_ok responderKemSlot_ok responderReplayFingerprint_ok
  responderSignedPrekeySecret responderKemSlot responderOneTimeKey kemPairOf KemKeySlot oneTimeSlot
  responderDecapsulate)

variable {p : Primitives Secret} {s : PrekeyStore Secret} {identity : Identity} {message : Bytes}
  {r : Responded Secret}

/-- An accepted initial message: who accepted it, the KEM prekey it named, the
secret it derived. -/
structure Accepted where
  identity : Identity
  message : Bytes
  kemPrekeyId : UInt32
  sk : Secret
  deriving DecidableEq

/-- What an operation accepted: a successful `establish_responder` only. -/
def acceptedBy (p : Primitives Secret) (s : PrekeyStore Secret) : Op → Option Accepted
  | .establishResponder identity message rng =>
      match establishResponder p identity s message rng, respond p identity s message with
      | (_, .ok _, _), .ok r => some ⟨identity, message, r.decoded.kemPrekeyId, r.sk⟩
      | _, _ => none
  | _ => none

/-- What a run accepted, in order. -/
def acceptedAlong (p : Primitives Secret) (s : PrekeyStore Secret) : List Op → List Accepted
  | [] => []
  | op :: rest => (acceptedBy p s op).toList ++ acceptedAlong p (step p s op) rest

theorem acceptedAlong_some {op : Op} {rest : List Op} {a : Accepted}
    (accepted : acceptedBy p s op = some a) :
    acceptedAlong p s (op :: rest) = a :: acceptedAlong p (step p s op) rest := by
  rw [acceptedAlong, accepted]
  rfl

theorem acceptedAlong_none {op : Op} {rest : List Op} (refused : acceptedBy p s op = none) :
    acceptedAlong p s (op :: rest) = acceptedAlong p (step p s op) rest := by
  rw [acceptedAlong, refused]
  rfl

theorem acceptedBy_some {op : Op} {a : Accepted} (accepted : acceptedBy p s op = some a) :
    ∃ r, respond p a.identity s a.message = .ok r ∧ a.kemPrekeyId = r.decoded.kemPrekeyId ∧
      a.sk = r.sk ∧ step p s op = spend s r := by
  cases op with
  | establishResponder identity message rng =>
      rw [acceptedBy] at accepted
      obtain ⟨e, rng', refused⟩ | ⟨r, session, plaintext, rng', responded, -, opened⟩ :=
        establishResponder_cases p identity s message rng
      · simp [refused] at accepted
      · rw [opened, responded] at accepted
        simp only [Option.some.injEq] at accepted
        subst accepted
        exact ⟨r, responded, rfl, rfl, by rw [step, opened]⟩
  | publish => simp [acceptedBy] at accepted
  | replenish identity count rng => simp [acceptedBy] at accepted
  | rotateSignedPrekey identity rng => simp [acceptedBy] at accepted
  | rotateKem identity rng => simp [acceptedBy] at accepted
  | reload => simp [acceptedBy] at accepted

/-! ## What the store remembers -/

/-- The store remembers a handshake that named KEM prekey `id` and derived `sk`. -/
structure Remembers (p : Primitives Secret) (s : PrekeyStore Secret) (id : UInt32) (sk : Secret) :
    Prop where
  issued : id < s.nextId
  recorded : s.isLastResort id = true → (id, lastResortFingerprint p.kdf sk) ∈ s.lastResortSeen
  deleted : s.isLastResort id = false → ∀ e ∈ s.kemOneTime, e.1 ≠ id

/-- A remembered handshake is not accepted. -/
theorem Remembers.refuses {id : UInt32} {sk : Secret} (remembers : Remembers p s id sk)
    (responded : respond p identity s message = .ok r) :
    ¬ (r.decoded.kemPrekeyId = id ∧ r.sk = sk) := by
  rintro ⟨rfl, rfl⟩
  obtain ⟨slot, ephemeral, oneTimeKey, ss, steps⟩ := respond_ok responded
  obtain ⟨lastResort, entry⟩ := responderKemSlot_ok steps.kemSlot
  obtain ⟨last, -⟩ | ⟨last, -, fresh, -⟩ := responderReplayFingerprint_ok steps.replay
  · obtain ⟨e, member, named⟩ := entry last
    exact remembers.deleted (lastResort ▸ last) e member named
  · exact fresh _ (remembers.recorded (lastResort ▸ last)) rfl

/-- Accepting a handshake makes the store remember it. -/
theorem remembers_spend (valid : Valid p s) (responded : respond p identity s message = .ok r) :
    Remembers p (spend s r) r.decoded.kemPrekeyId r.sk := by
  have spends := spend_spends responded
  have spent := spend_spent responded
  obtain ⟨slot, ephemeral, oneTimeKey, ss, steps⟩ := respond_ok responded
  obtain ⟨lastResort, entry⟩ := responderKemSlot_ok steps.kemSlot
  have named : r.decoded.kemPrekeyId ∈ s.ids := by
    cases last : r.lastResort with
    | false =>
        obtain ⟨e, member, same⟩ := entry last
        rw [← same]
        exact List.mem_append_right _ (List.mem_map_of_mem member)
    | true =>
        rw [last, eq_comm, PrekeyStore.isLastResort, Bool.or_eq_true, decide_eq_true_eq,
          decide_eq_true_eq] at lastResort
        rcases lastResort with current | previous
        · simp [PrekeyStore.ids, current]
        · unfold PrekeyStore.previousKemId at previous
          simp [PrekeyStore.ids, ← previous]
  refine ⟨spends.nextId ▸ (valid.numbered _ named).2, fun last => ?_, fun notLast => ?_⟩
  · rw [spends.isLastResort, ← lastResort] at last
    rw [spent.lastResortSeen, if_pos last]
    simp
  · rw [spends.isLastResort, ← lastResort] at notLast
    have removed := spent.kemOneTime
    rw [notLast, if_neg (by simp)] at removed
    obtain ⟨gone, goneNamed, perm⟩ := removed
    intro e member same
    have distinct : (s.kemOneTime.map Prod.fst).Nodup :=
      (List.nodup_append.1 valid.distinct).2.1
    have := (perm.map Prod.fst).nodup_iff.1 distinct
    rw [List.map_cons, List.nodup_cons, goneNamed, ← same] at this
    exact this.1 (List.mem_map_of_mem member)

variable {id : UInt32} {sk : Secret}

theorem Remembers.spend (remembers : Remembers p s id sk)
    (responded : respond p identity s message = .ok r) : Remembers p (spend s r) id sk := by
  have spends := spend_spends responded
  refine ⟨spends.nextId ▸ remembers.issued, fun last => ?_, fun notLast e member => ?_⟩
  · rw [spends.isLastResort] at last
    rw [(spend_spent responded).lastResortSeen]
    split
    · exact List.mem_append_left _ (remembers.recorded last)
    · exact remembers.recorded last
  · rw [spends.isLastResort] at notLast
    exact remembers.deleted notLast e (spends.kemOneTime e member)

/-- Refilling changes neither the live last-resort keys nor the record, and
numbers its keys past every identifier already issued. -/
theorem Remembers.replenish (remembers : Remembers p s id sk) (identity : Identity) (count : Nat)
    (rng : Rng) : Remembers p (s.replenish p identity count rng).1 id sk := by
  refine replenish_induction p s identity (motive := fun t => Remembers p t id sk) remembers
    (fun t next secret h climbs => ?_) (fun _ t next rng h climbs => ?_) count rng
  · exact ⟨UInt32.lt_of_lt_of_le h.issued (le_of_climbs climbs), h.recorded, h.deleted⟩
  · refine ⟨UInt32.lt_of_lt_of_le h.issued (le_of_climbs climbs), h.recorded,
      fun notLast e member => ?_⟩
    rcases List.mem_append.1 member with old | new
    · exact h.deleted notLast e old
    · rw [List.mem_singleton] at new
      rw [new]
      exact (UInt32.ne_of_lt h.issued).symm

/-- Rotating the last-resort key keeps the record of the key it retires, and a
key it wipes is named by nothing afterwards. -/
theorem Remembers.rotateKem (remembers : Remembers p s id sk) (valid : Valid p s)
    (identity : Identity) (rng : Rng) : Remembers p (s.rotateKem p identity rng).1 id sk := by
  rcases rotateKem_cases p s identity rng with same | ⟨next, climbs, -, rotated⟩
  · rw [same]
    exact remembers
  rw [rotated]
  generalize (mintKem p identity rng).1 = minted
  have old : id ≠ s.nextId := UInt32.ne_of_lt remembers.issued
  have after : PrekeyStore.isLastResort { s with
      nextId := next
      previousKem := some (s.kem, s.kemId, s.kemSig)
      lastResortSeen := s.pruned.1
      legacyLastResortBlocked := s.pruned.2
      kem := minted.1
      kemId := s.nextId
      kemSig := minted.2 } id = decide (id = s.kemId) := by
    simp [PrekeyStore.isLastResort, PrekeyStore.previousKemId, old]
  refine ⟨UInt32.lt_of_lt_of_le remembers.issued (le_of_climbs climbs), fun last => ?_,
    fun notLast e member => ?_⟩
  · rw [after, decide_eq_true_eq] at last
    have entry := remembers.recorded (by simp [PrekeyStore.isLastResort, last])
    simp only [PrekeyStore.pruned]
    cases previous : s.previousKem with
    | none => exact entry
    | some retired =>
        refine List.mem_filter.2 ⟨entry, ?_⟩
        simpa [last] using valid.kemId_ne_previous previous
  · rw [after, decide_eq_false_iff_not] at notLast
    by_cases wiped : some id = s.previousKemId
    · intro same
      have distinct := valid.distinct
      unfold PrekeyStore.previousKemId at wiped
      have apart := (List.nodup_append.1 distinct).2.2 id (by simp [← wiped]) e.1
        (List.mem_map_of_mem member)
      exact apart same.symm
    · exact remembers.deleted (by simp [PrekeyStore.isLastResort, notLast, wiped]) e member

/-- **Every operation keeps what the store remembers.** -/
theorem Remembers.step (remembers : Remembers p s id sk) (ok : Restorable p s) (op : Op) :
    Remembers p (step p s op) id sk := by
  cases op with
  | publish => exact remembers
  | reload => simpa [Store.step, reloaded_eq ok] using remembers
  | replenish identity count rng => exact remembers.replenish identity count rng
  | rotateSignedPrekey identity rng =>
      rw [Store.step]
      rcases rotateSignedPrekey_cases p s identity rng with same | ⟨next, climbs, -, rotated⟩
      · rw [same]
        exact remembers
      · rw [rotated]
        generalize (mintSignedPrekey p identity rng).1 = minted
        exact ⟨UInt32.lt_of_lt_of_le remembers.issued (le_of_climbs climbs), remembers.recorded,
          remembers.deleted⟩
  | rotateKem identity rng => exact remembers.rotateKem ok.valid identity rng
  | establishResponder identity message rng =>
      rw [Store.step]
      obtain ⟨e, rng', refused⟩ | ⟨r, session, plaintext, rng', responded, -, opened⟩ :=
        establishResponder_cases p identity s message rng
      · rw [refused]
        exact remembers
      · rw [opened]
        exact remembers.spend responded

/-- A remembered handshake is not among those a run accepts from here on. -/
theorem Remembers.not_acceptedAlong (correct : p.xed.Correct p.dh) (honest : p.kem.Honest)
    (ok : Restorable p s) (remembers : Remembers p s id sk) (ops : List Op) :
    ∀ a ∈ acceptedAlong p s ops, ¬ (a.kemPrekeyId = id ∧ a.sk = sk) := by
  induction ops generalizing s with
  | nil => simp [acceptedAlong]
  | cons op rest ih =>
      intro a member
      rcases List.mem_append.1 member with now | later
      · obtain ⟨r, responded, hid, hsk, -⟩ := acceptedBy_some (Option.mem_toList.1 now)
        rw [hid, hsk]
        exact remembers.refuses responded
      · exact ih (restorable_step correct honest ok op) (remembers.step ok op) a later

/-- No two handshakes of a run name one KEM prekey and derive one secret. -/
theorem acceptedAlong_pairwise (correct : p.xed.Correct p.dh) (honest : p.kem.Honest)
    (ok : Restorable p s) (ops : List Op) :
    (acceptedAlong p s ops).Pairwise fun a b => ¬ (b.kemPrekeyId = a.kemPrekeyId ∧ b.sk = a.sk) := by
  induction ops generalizing s with
  | nil => exact List.Pairwise.nil
  | cons op rest ih =>
      have next := restorable_step correct honest ok op
      cases accepted : acceptedBy p s op with
      | none =>
          rw [acceptedAlong_none accepted]
          exact ih next
      | some a =>
          obtain ⟨r, responded, hid, hsk, after⟩ := acceptedBy_some accepted
          rw [acceptedAlong_some accepted]
          refine List.Pairwise.cons ?_ (ih next)
          rw [hid, hsk]
          refine Remembers.not_acceptedAlong correct honest next ?_ rest
          rw [after]
          exact remembers_spend ok.valid responded

/-! ## The same bytes derive the same secret -/

/-- The KEM key pair a key is, when it is one. -/
def Key.pair : Key → Option KeyPair
  | .lastResort pair | .kemOneTime pair => some pair
  | .signed _ | .oneTime _ => none

theorem signed_named {id : UInt32} {secret : Arr 32}
    (found : responderSignedPrekeySecret s id = .ok secret) :
    (id, Key.signed secret) ∈ entries s := by
  unfold responderSignedPrekeySecret at found
  split at found
  · rename_i current
    simp only [Except.ok.injEq] at found
    simp [entries, current, found]
  · cases previous : s.previousSignedPrekey with
    | none => simp [previous] at found
    | some retired =>
        simp only [previous] at found
        split at found
        · rename_i named
          simp only [Except.ok.injEq] at found
          simp [entries, previous, named, found]
        · simp at found

theorem oneTimeSlot_named {id : UInt32} {slot : KemKeySlot} {lastResort : Bool} {pair : KeyPair}
    (found : oneTimeSlot s id = .ok (slot, lastResort)) (read : kemPairOf s slot = .ok pair) :
    (id, Key.kemOneTime pair) ∈ entries s := by
  unfold oneTimeSlot at found
  split at found
  · rename_i index here
    simp only [Except.ok.injEq, Prod.mk.injEq] at found
    obtain ⟨inside, named, -⟩ := List.findIdx?_eq_some_iff_getElem.1 here
    rw [← found.1, kemPairOf, List.getElem?_eq_getElem inside] at read
    simp only [Except.ok.injEq] at read
    simp only [decide_eq_true_eq] at named
    refine List.mem_append_right _ (List.mem_map.2 ⟨s.kemOneTime[index], List.getElem_mem _, ?_⟩)
    rw [named, read]
  · simp at found

theorem kem_named {id : UInt32} {slot : KemKeySlot} {lastResort : Bool} {pair : KeyPair}
    (found : responderKemSlot s id = .ok (slot, lastResort)) (read : kemPairOf s slot = .ok pair) :
    ∃ key, (id, key) ∈ entries s ∧ key.pair = some pair := by
  unfold responderKemSlot at found
  split at found
  · rename_i current
    split at found
    · simp at found
    · simp only [Except.ok.injEq, Prod.mk.injEq] at found
      rw [← found.1, kemPairOf, Except.ok.injEq] at read
      exact ⟨.lastResort pair, by simp [entries, current, read], rfl⟩
  · cases previous : s.previousKem with
    | none =>
        simp only [previous] at found
        exact ⟨_, oneTimeSlot_named found read, rfl⟩
    | some retired =>
        simp only [previous] at found
        split at found
        · rename_i named
          split at found
          · simp at found
          · simp only [Except.ok.injEq, Prod.mk.injEq] at found
            rw [← found.1, kemPairOf, previous] at read
            simp only [Except.ok.injEq] at read
            exact ⟨.lastResort pair, by simp [entries, previous, named, read], rfl⟩
        · exact ⟨_, oneTimeSlot_named found read, rfl⟩

theorem oneTime_named {id : UInt32} {key : Option (Arr 32)}
    (found : responderOneTimeKey s id = .ok key) :
    (id = absentId ∧ key = none) ∨
      ∃ secret, key = some secret ∧ id ≠ absentId ∧ (id, Key.oneTime secret) ∈ entries s := by
  unfold responderOneTimeKey PrekeyStore.peekOneTime at found
  split at found
  · rename_i absent
    simp only [Except.ok.injEq] at found
    exact .inl ⟨absent, found.symm⟩
  · rename_i present
    cases h : s.oneTime.find? fun entry => entry.1 = id with
    | none => simp [h] at found
    | some entry =>
        simp only [h, Option.map_some, Except.ok.injEq] at found
        have named : entry.1 = id := by simpa using List.find?_some h
        refine .inr ⟨entry.2, found.symm, present, ?_⟩
        refine List.mem_append_left _ (List.mem_append_right _ ?_)
        exact List.mem_map.2 ⟨entry, List.mem_of_find?_eq_some h, by rw [named]⟩

/-- A key named now and a key named later under one identifier are one key. -/
theorem key_stable {t : PrekeyStore Secret} (mints : Mints s t) (valid : Valid p s)
    {id : UInt32} {before after : Key} (old : (id, before) ∈ entries s)
    (new : (id, after) ∈ entries t) : after = before := by
  rcases mints.entries _ new with still | fresh
  · exact congrArg Prod.snd (valid.entries_inj still old rfl)
  · have issued := (valid.numbered id (entries_ids s ▸ List.mem_map_of_mem old)).2
    exact absurd issued (UInt32.not_lt.2 fresh)

/-- **One identity derives one secret from one message**, however long the store
has lived in between. -/
theorem respond_stable {t : PrekeyStore Secret} (mints : Mints s t) (valid : Valid p s)
    {r' : Responded Secret} (first : respond p identity s message = .ok r)
    (second : respond p identity t message = .ok r') :
    r'.decoded.kemPrekeyId = r.decoded.kemPrekeyId ∧ r'.sk = r.sk := by
  obtain ⟨slot, ephemeral, oneTimeKey, ss, steps⟩ := respond_ok first
  obtain ⟨slot', ephemeral', oneTimeKey', ss', steps'⟩ := respond_ok second
  have decoded : r'.decoded = r.decoded :=
    Except.ok.inj (steps'.decoded.symm.trans steps.decoded)
  have signed : r'.signedPrekeySecret = r.signedPrekeySecret :=
    Key.signed.inj (key_stable mints valid (decoded ▸ signed_named steps.signed)
      (signed_named steps'.signed))
  have curves : (r'.initiatorIdentity, ephemeral') = (r.initiatorIdentity, ephemeral) :=
    Except.ok.inj (steps'.curves.symm.trans (decoded ▸ steps.curves))
  rw [Prod.mk.injEq] at curves
  have oneTime : oneTimeKey' = oneTimeKey := by
    have now := oneTime_named steps'.oneTime
    rw [decoded] at now
    rcases oneTime_named steps.oneTime with ⟨absent, none_⟩ | ⟨secret, rfl, present, old⟩
    · rcases now with ⟨-, none'⟩ | ⟨-, -, present, -⟩
      · rw [none_, none']
      · exact absurd absent present
    · rcases now with ⟨absent, -⟩ | ⟨secret', rfl, -, new⟩
      · exact absurd absent present
      · rw [Key.oneTime.inj (key_stable mints valid old new)]
  have kem : ss' = ss := by
    have before := steps.decapsulated
    have after := steps'.decapsulated
    unfold responderDecapsulate at before after
    split at before
    · simp at before
    rename_i pair read
    split at after
    · simp at after
    rename_i pair' read'
    obtain ⟨key, old, hpair⟩ := kem_named steps.kemSlot read
    obtain ⟨key', new, hpair'⟩ := kem_named steps'.kemSlot read'
    rw [decoded] at new
    rw [key_stable mints valid old new, hpair, Option.some.injEq] at hpair'
    rw [← hpair', decoded] at after
    exact Except.ok.inj (after.symm.trans before)
  refine ⟨by rw [decoded], ?_⟩
  have secret := steps'.secret
  rw [signed, oneTime, curves.1, curves.2, kem] at secret
  exact Except.ok.inj (secret.symm.trans steps.secret)

/-- Whatever a run accepts of one identity's message, it derives what the
message derived before. -/
theorem acceptedAlong_stable (correct : p.xed.Correct p.dh) (honest : p.kem.Honest)
    (valid : Valid p s) (first : respond p identity s message = .ok r) (ops : List Op)
    {t : PrekeyStore Secret} (ok : Restorable p t) (mints : Mints s t) :
    ∀ a ∈ acceptedAlong p t ops, a.identity = identity → a.message = message →
      a.kemPrekeyId = r.decoded.kemPrekeyId ∧ a.sk = r.sk := by
  induction ops generalizing t with
  | nil => simp [acceptedAlong]
  | cons op rest ih =>
      intro a member sameIdentity sameMessage
      rcases List.mem_append.1 member with now | later
      · obtain ⟨r', responded, hid, hsk, -⟩ := acceptedBy_some (Option.mem_toList.1 now)
        rw [sameIdentity, sameMessage] at responded
        rw [hid, hsk]
        exact respond_stable mints valid first responded
      · exact ih (restorable_step correct honest ok op) (mints.trans (step_mints ok op)) a later
          sameIdentity sameMessage

/-- Every handshake of the run is opened under one identity, the store's owner. -/
def OpensAs (owner : Identity) : Op → Prop
  | .establishResponder identity _ _ => identity = owner
  | _ => True

theorem acceptedBy_named {rng : Rng} {a : Accepted}
    (accepted : acceptedBy p s (.establishResponder identity message rng) = some a) :
    a.identity = identity ∧ a.message = message := by
  obtain ⟨e, rng', refused⟩ | ⟨r, session, plaintext, rng', responded, -, opened⟩ :=
    establishResponder_cases p identity s message rng
  · simp [acceptedBy, refused] at accepted
  · simp only [acceptedBy, opened, responded, Option.some.injEq] at accepted
    rw [← accepted]
    exact ⟨rfl, rfl⟩

theorem acceptedBy_under {owner : Identity} {op : Op} {a : Accepted} (opens : OpensAs owner op)
    (accepted : acceptedBy p s op = some a) : a.identity = owner := by
  cases op with
  | establishResponder identity message rng => exact (acceptedBy_named accepted).1.trans opens
  | publish => simp [acceptedBy] at accepted
  | replenish identity count rng => simp [acceptedBy] at accepted
  | rotateSignedPrekey identity rng => simp [acceptedBy] at accepted
  | rotateKem identity rng => simp [acceptedBy] at accepted
  | reload => simp [acceptedBy] at accepted

theorem acceptedAlong_under {owner : Identity} (ops : List Op)
    (opens : ∀ op ∈ ops, OpensAs owner op) :
    ∀ a ∈ acceptedAlong p s ops, a.identity = owner := by
  induction ops generalizing s with
  | nil => simp [acceptedAlong]
  | cons op rest ih =>
      intro a member
      rcases List.mem_append.1 member with now | later
      · exact acceptedBy_under (opens op List.mem_cons_self) (Option.mem_toList.1 now)
      · exact ih (fun op inside => opens op (List.mem_cons_of_mem _ inside)) a later

/-- No identity accepts one message twice. -/
theorem acceptedAlong_messages (correct : p.xed.Correct p.dh) (honest : p.kem.Honest)
    (ok : Restorable p s) (ops : List Op) :
    (acceptedAlong p s ops).Pairwise fun a b =>
      ¬ (b.identity = a.identity ∧ b.message = a.message) := by
  induction ops generalizing s with
  | nil => exact List.Pairwise.nil
  | cons op rest ih =>
      have next := restorable_step correct honest ok op
      cases accepted : acceptedBy p s op with
      | none =>
          rw [acceptedAlong_none accepted]
          exact ih next
      | some a =>
          obtain ⟨r, responded, hid, hsk, after⟩ := acceptedBy_some accepted
          have fresh := acceptedAlong_pairwise correct honest ok (op :: rest)
          rw [acceptedAlong_some accepted] at fresh ⊢
          refine List.Pairwise.cons (fun b member same => ?_) (ih next)
          obtain ⟨sameIdentity, sameMessage⟩ := same
          apply (List.pairwise_cons.1 fresh).1 b member
          rw [hid, hsk]
          exact acceptedAlong_stable correct honest ok.valid responded rest next
            (step_mints ok op) b member sameIdentity sameMessage

/-- **No initial-message replay.**  Over any run of a store from its creation, no
two accepted initial messages name one KEM prekey and derive one secret, and no
identity accepts one message twice.  So where the store's owner is the one who
opens, no two accepted messages are the same bytes. -/
theorem no_replay (dhHonest : p.dh.Honest) (correct : p.xed.Correct p.dh) (honest : p.kem.Honest)
    (creator : Identity) (count : Nat) (rng : Rng) (ops : List Op) :
    (acceptedAlong p (createPrekeys p creator count rng).1 ops).Pairwise (fun a b =>
      ¬ (b.kemPrekeyId = a.kemPrekeyId ∧ b.sk = a.sk) ∧
        ¬ (b.identity = a.identity ∧ b.message = a.message)) ∧
    ∀ owner, (∀ op ∈ ops, OpensAs owner op) →
      (acceptedAlong p (createPrekeys p creator count rng).1 ops).Pairwise fun a b =>
        b.message ≠ a.message := by
  have start := createPrekeys_restorable dhHonest correct honest creator count rng
  have secrets := acceptedAlong_pairwise correct honest start ops
  have messages := acceptedAlong_messages correct honest start ops
  refine ⟨secrets.and messages, fun owner opens => ?_⟩
  have under := acceptedAlong_under (p := p) (s := (createPrekeys p creator count rng).1) ops opens
  refine messages.imp_of_mem fun first second distinct same => distinct ⟨?_, same⟩
  exact (under _ second).trans (under _ first).symm

end Tacenta.Store
