/-
# Tacenta.Spqr.Keys -- no message key serves twice

A party sends on one chain of an epoch and receives on the other, whichever
secrets it has folded.  Over an ideal derivation the chains never meet
(`messageKeyOf_apart`), so among all a party drew and answered no message key
repeats (`Keyed.keys_nodup`): none is answered twice, and none it answers is one
it sent under.
-/
import Tacenta.Spqr.Lineage

set_option autoImplicit false

namespace Tacenta.Spqr

variable {K : Type} {kdf : Kdf K} {sk : Bytes} {secret secret' : UInt64 → K}

/-- The message key a call drew or answered. -/
def Event.key : Event K → Option K
  | .sent _ _ key => some key
  | .received _ _ key => some key
  | .evicted _ _ => none

/-- Which way a message went, with its numbers. -/
def Event.place : Event K → Option (Bool × UInt64 × UInt64)
  | .sent e n _ => some (true, e, n)
  | .received e n _ => some (false, e, n)
  | .evicted _ _ => none

theorem Event.sentPair_of_place {event : Event K} {pair : UInt64 × UInt64}
    (place : event.place = some (true, pair)) : event.sentPair = some pair := by
  cases event with
  | sent => simpa [Event.place, Event.sentPair] using place
  | received | evicted => simp [Event.place] at place

theorem Event.receivedPair_of_place {event : Event K} {pair : UInt64 × UInt64}
    (place : event.place = some (false, pair)) : event.receivedPair = some pair := by
  cases event with
  | received => simpa [Event.place, Event.receivedPair] using place
  | sent | evicted => simp [Event.place] at place

/-! ## The two directions never meet -/

theorem chainKeyOf_apart (ideal : kdf.Ideal) (d : Direction) (e e' : UInt64) :
    chainKeyOf kdf sk secret d e ≠ chainKeyOf kdf sk secret d.other e' := by
  have blocks : ∀ e e' : Nat, epochBlock kdf sk secret e 1 ≠ epochBlock kdf sk secret e' 2 := by
    intro e e' same
    have number : 1 = 2 := by
      cases e with
      | zero =>
          cases e' with
          | zero => exact (ideal.hkdf_inj (by omega) (by omega) same).2.2
          | succ e' => exact (ideal.hkdf_inj (by omega) (by omega) same).2.2
      | succ e =>
          cases e' with
          | zero => exact (ideal.hkdf_inj (by omega) (by omega) same).2.2
          | succ e' => exact (ideal.hkdf_inj (by omega) (by omega) same).2.2
    omega
  intro same
  rw [chainKeyOf, chainKeyOf, epochKeys_eq, epochKeys_eq] at same
  cases d with
  | a2b => exact blocks _ _ same
  | b2a => exact blocks _ _ same.symm

/-- **No key of one direction is a key of the other.** -/
theorem messageKeyOf_apart (ideal : kdf.Ideal) {d : Direction} {e n e' n' : UInt64}
    (hn : 1 ≤ n.toNat) (hn' : 1 ≤ n'.toNat) :
    messageKeyOf kdf sk secret d e n ≠ messageKeyOf kdf sk secret d.other e' n' := by
  intro same
  have top := n.toNat_lt
  have top' := n'.toNat_lt
  obtain ⟨chains, -⟩ := messageFrom_inj ideal (by omega) (by omega) same
  exact chainKeyOf_apart ideal d e e' chains

namespace State

variable {offered : Output K → Prop} {s s' : State K} {past now : List (Event K)}

/-- What was scheduled at or below an epoch stays so when later secrets change. -/
theorem Scheduled.congr {d : Direction} {top : Nat}
    (agree : ∀ i : UInt64, i.toNat ≤ top → secret i = secret' i) {event : Event K}
    (below : ∀ b e n, event.place = some (b, e, n) → e.toNat ≤ top)
    (scheduled : Scheduled kdf sk secret d event) : Scheduled kdf sk secret' d event := by
  cases event with
  | sent e n key =>
      refine ⟨scheduled.1, ?_⟩
      rw [← messageKeyOf_congr agree (below true e n rfl)]
      exact scheduled.2
  | received e n key =>
      show key = _
      rw [← messageKeyOf_congr agree (below false e n rfl)]
      exact scheduled
  | evicted => trivial

/-! ## Everything drawn and answered -/

/-- The calls so far: each pair once in each direction, and under the keys of one
schedule. -/
structure Keyed (kdf : Kdf K) (past : List (Event K)) (s : State K) : Prop where
  sound : Sound s
  drawn : Drawn past s
  served : Served past s
  positive : ∀ e n, (e, n) ∈ past.filterMap Event.receivedPair → 1 ≤ n.toNat
  lineage : ∃ sk secret, OnSchedule kdf sk secret s ∧
    ∀ event ∈ past, Scheduled kdf sk secret s.direction event

/-- Numbers answered start at one. -/
theorem Move.positive (move : Move kdf offered s now s') (sound : Sound s) {e n : UInt64}
    (answered : (e, n) ∈ now.filterMap Event.receivedPair) : 1 ≤ n.toNat := by
  cases move with
  | fold | skip => simp at answered
  | send => simp [Event.receivedPair] at answered
  | @serve e' n' k left taken =>
      obtain ⟨member, matches_⟩ := takeFirst_mem taken
      simp only [named, decide_eq_true_eq] at matches_
      obtain ⟨ch, -, positive, -⟩ := sound.stored k member
      simp only [List.filterMap_cons, Event.receivedPair, List.filterMap_nil, List.mem_singleton,
        Prod.mk.injEq] at answered
      rw [answered.2, ← matches_.2]
      exact positive
  | @receive e' n' cs ch found chain climbs =>
      have next := next_toNat climbs
      simp only [List.filterMap_cons, Event.receivedPair, List.filterMap_nil, List.mem_singleton,
        Prod.mk.injEq] at answered
      rw [answered.2]
      omega
  | evict count =>
      obtain ⟨event, member, pair⟩ := List.mem_filterMap.1 answered
      obtain ⟨k, -, rfl⟩ := List.mem_map.1 member
      simp [Event.receivedPair] at pair

/-- **Every move keeps the record.** -/
theorem Move.keyed (move : Move kdf offered s now s') (keyed : Keyed kdf past s) :
    Keyed kdf (past ++ now) s' := by
  obtain ⟨sound, drawn, served, positive, sk, secret, on, scheduled⟩ := keyed
  obtain ⟨secret', agree, fed⟩ := move.refed secret
  obtain ⟨on', direction, scheduled'⟩ := fed.onSchedule (on.congr sound.valid agree)
  refine ⟨move.sound sound, move.drawn sound.valid drawn, move.served sound served, ?_,
    sk, secret', on', ?_⟩
  · intro e n member
    rw [List.filterMap_append, List.mem_append] at member
    rcases member with old | new
    · exact positive e n old
    · exact move.positive sound new
  · intro event member
    rw [direction]
    rcases List.mem_append.1 member with old | new
    · apply (scheduled event old).congr agree
      intro b e n place
      cases event with
      | sent e' n' key =>
          simp only [Event.place, Option.some.injEq, Prod.mk.injEq] at place
          rw [← place.2.1]
          exact drawn.opened e' n' (List.mem_filterMap.2 ⟨_, old, rfl⟩)
      | received e' n' key =>
          simp only [Event.place, Option.some.injEq, Prod.mk.injEq] at place
          rw [← place.2.1]
          exact served.opened e' n' (List.mem_filterMap.2 ⟨_, old, rfl⟩)
      | evicted => simp [Event.place] at place
    · exact scheduled' event new

theorem init_keyed (kdf : Kdf K) (sk : Bytes) (direction : Direction) :
    Keyed kdf [] (init kdf sk direction) :=
  ⟨init_sound kdf sk direction, init_drawn kdf sk direction,
    ⟨List.nodup_nil, by simp, by simp, by simp⟩, by simp, sk, fun _ => kdf.zero,
    init_onSchedule kdf sk _ direction, by simp⟩

/-- Losing stored keys changes nothing of it. -/
theorem Keyed.of_sublist (keyed : Keyed kdf past s) {left : List (Skipped K)}
    (sub : left.Sublist s.skipped) : Keyed kdf past { s with skipped := left } := by
  obtain ⟨sound, drawn, served, positive, sk, secret, on, scheduled⟩ := keyed
  refine ⟨⟨sound.valid.of_sublist sub, sound.paired, fun k member =>
      sound.stored k (sub.subset member)⟩, ⟨drawn.once, drawn.opened, drawn.behind⟩,
    ⟨served.once, served.opened, served.behind, fun e n answered k member =>
      served.gone e n answered k (sub.subset member)⟩, positive, sk, secret,
    ⟨on.root, on.sending, on.receiving, fun k member => on.stored k (sub.subset member)⟩,
    scheduled⟩

/-- A send that draws is recorded. -/
theorem Keyed.send (keyed : Keyed kdf past s) {epoch n : UInt64} {output : Option (Output K)}
    {key : K} (sent : s.send kdf epoch output = (s', .ok (n, key))) :
    Keyed kdf (past ++ [.sent epoch n key]) s' := by
  have moves : Moves kdf (fun _ => True) s _ _ :=
    call_moves kdf s (.send epoch output) fun _ _ => trivial
  have after := moves.keeps (fun _ _ _ _ move here => move.keyed here) keyed
  simp only [State.call, sent] at after
  exact after

/-- A receive that answers is recorded. -/
theorem Keyed.receive (keyed : Keyed kdf past s) {epoch n : UInt64} {output : Option (Output K)}
    {key : K} (received : s.receive kdf epoch output n = (s', .ok key)) :
    Keyed kdf (past ++ [.received epoch n key]) s' := by
  have moves : Moves kdf (fun _ => True) s _ _ :=
    call_moves kdf s (.receive epoch output n) fun _ _ => trivial
  have after := moves.keeps (fun _ _ _ _ move here => move.keyed here) keyed
  simp only [State.call, received] at after
  exact after

/-- **No message key serves twice**, in either direction. -/
theorem Keyed.keys_nodup (ideal : kdf.Ideal) (keyed : Keyed kdf past s) :
    (past.filterMap Event.key).Nodup := by
  obtain ⟨-, drawn, served, positive, sk, secret, -, scheduled⟩ := keyed
  have places : (past.filterMap Event.place).Nodup := by
    have sent := drawn.once
    have received := served.once
    rw [List.Nodup, List.pairwise_filterMap] at sent received ⊢
    refine (sent.and received).imp ?_
    rintro a b ⟨sent, received⟩ ⟨way, pair⟩ hx _ hy rfl
    cases way with
    | true => exact sent _ (Event.sentPair_of_place hx) _ (Event.sentPair_of_place hy) rfl
    | false =>
        exact received _ (Event.receivedPair_of_place hx) _ (Event.receivedPair_of_place hy) rfl
  apply nodup_filterMap_of places
  intro a left b right key ha hb
  have number : ∀ {e n : UInt64} {key : K}, Event.received e n key ∈ past → 1 ≤ n.toNat :=
    fun member => positive _ _ (List.mem_filterMap.2 ⟨_, member, rfl⟩)
  have first := scheduled a left
  have second := scheduled b right
  cases a with
  | evicted => simp [Event.key] at ha
  | sent e n mk =>
      obtain rfl : mk = key := Option.some.inj ha
      cases b with
      | evicted => simp [Event.key] at hb
      | sent e' n' mk' =>
          obtain rfl : mk' = mk := Option.some.inj hb
          obtain ⟨rfl, rfl⟩ := messageKeyOf_inj ideal first.1 second.1 (first.2.symm.trans second.2)
          exact ⟨_, rfl, rfl⟩
      | received e' n' mk' =>
          obtain rfl : mk' = mk := Option.some.inj hb
          have same := first.2.symm.trans second
          exact absurd same (messageKeyOf_apart ideal first.1 (number right))
  | received e n mk =>
      obtain rfl : mk = key := Option.some.inj ha
      cases b with
      | evicted => simp [Event.key] at hb
      | sent e' n' mk' =>
          obtain rfl : mk' = mk := Option.some.inj hb
          have same := second.2.symm.trans first
          exact absurd same (messageKeyOf_apart ideal second.1 (number left))
      | received e' n' mk' =>
          obtain rfl : mk' = mk := Option.some.inj hb
          have same : messageKeyOf kdf sk secret s.direction.other e n =
              messageKeyOf kdf sk secret s.direction.other e' n' := first.symm.trans second
          obtain ⟨rfl, rfl⟩ := messageKeyOf_inj ideal (number left) (number right) same
          exact ⟨_, rfl, rfl⟩

end State

end Tacenta.Spqr
