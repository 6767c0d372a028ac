/-
# Tacenta.Ratchet.Aging -- how long a skipped key is kept

The clock counts accepted receives and every entry keeps the reading it was
stored at.  Along every run a stored entry has not outlived its age (`Young`), and
an entry stored and not used, purged or evicted since is there until it has
(`Held`).  Only an accepted receive ages: `receive_stored_at` says that what a
receive stores it stamps with the reading it found, and ages after.

The clock stops one short of `u32::MAX`.  There an entry stored near the stop no
longer ages; what is dropped is still only what has reached the limit, and no sum
or difference leaves its range (`ageStore_exact`).
-/
import Tacenta.Ratchet.Line
import Tacenta.Ratchet.Replay

set_option autoImplicit false

namespace Tacenta.Ratchet.State

variable {K : Type} {kdf : Kdf K} {s s' : State K} {past now : List (Event K)}

/-! ## The clock -/

/-- The clock steps by one until it stops. -/
theorem ageStore_clock (clock : s.events.toNat < 2 ^ 32 - 1) :
    (ageStore s).events.toNat = min (s.events.toNat + 1) maxEvents.toNat := by
  have stop : maxEvents.toNat = 2 ^ 32 - 2 := rfl
  have stepped : (s.events.saturatingAdd 1).toNat = s.events.toNat + 1 := by
    rw [UInt32.toNat_saturatingAdd, UInt32.toNat_one]
    omega
  simp only [ageStore]
  split
  · rename_i last
    rw [last, UInt32.toNat_ofNat'] at stepped
    omega
  · rename_i notLast
    rw [← UInt32.toNat_inj, stepped, UInt32.toNat_ofNat'] at notLast
    rw [stepped]
    omega

/-- Every entry was stored at a reading, and has not outlived it. -/
structure Young (s : State K) : Prop where
  clock : s.events.toNat < 2 ^ 32 - 1
  stored : ∀ k ∈ s.skipped, k.storedAt.toNat ≤ s.events.toNat
  young : ∀ k ∈ s.skipped, s.events.toNat < k.storedAt.toNat + maxSkippedAge.toNat

/-- **What an aging drops**: the entries that have reached the limit at the new
reading, with no sum or difference out of range. -/
theorem ageStore_exact (young : Young s) :
    (s.events.saturatingAdd 1).toNat = s.events.toNat + 1 ∧
      ∀ k ∈ s.skipped,
        ((ageStore s).events.saturatingSub k.storedAt).toNat + k.storedAt.toNat =
          (ageStore s).events.toNat ∧
        (k ∈ (ageStore s).skipped ↔
          (ageStore s).events.toNat < k.storedAt.toNat + maxSkippedAge.toNat) := by
  have clock := young.clock
  have stop : maxEvents.toNat = 2 ^ 32 - 2 := rfl
  have now := ageStore_clock clock
  constructor
  · rw [UInt32.toNat_saturatingAdd, UInt32.toNat_one]
    omega
  · intro k member
    have stored := young.stored k member
    have aged : k.aged (ageStore s).events = true ↔
        maxSkippedAge.toNat ≤ (ageStore s).events.toNat - k.storedAt.toNat := by
      rw [SkippedKey.aged, decide_eq_true_iff, ge_iff_le, UInt32.le_iff_toNat_le,
        UInt32.toNat_saturatingSub]
    have kept : k ∈ (ageStore s).skipped ↔ k.aged (ageStore s).events = false := by
      show k ∈ s.skipped.filter (fun k => !k.aged (ageStore s).events) ↔ _
      simp [member]
    refine ⟨by rw [UInt32.toNat_saturatingSub]; omega, ?_⟩
    rw [kept, ← Bool.not_eq_true, aged]
    omega

theorem Started.young (started : Started kdf s) : Young s := by
  obtain ⟨empty, zero, -⟩ := started.empty
  exact ⟨by rw [zero]; decide, by simp [empty], by simp [empty]⟩

theorem Young.of_sublist (young : Young s) {left : List (SkippedKey K)}
    (sub : left.Sublist s.skipped) : Young { s with skipped := left } :=
  ⟨young.clock, fun k member => young.stored k (sub.subset member),
    fun k member => young.young k (sub.subset member)⟩

/-- **Every move keeps the store young.** -/
theorem Move.young (move : Move kdf s now s') (young : Young s) : Young s' := by
  cases move with
  | send | ratchet | draw => exact ⟨young.clock, young.stored, young.young⟩
  | thin sub => exact young.of_sublist sub
  | use taken => exact young.of_sublist (takeFirst_sublist taken)
  | @skip ck dhr upto chain peer ahead room =>
      have limit : maxSkippedAge.toNat = 1000 := rfl
      refine ⟨young.clock, ?_, ?_⟩
      · intro k member
        rcases List.mem_append.1 member with old | new
        · exact young.stored k (List.mem_filter.1 old).1
        · obtain ⟨_, _, rfl⟩ := List.mem_map.1 new
          exact le_rfl
      · intro k member
        rcases List.mem_append.1 member with old | new
        · exact young.young k (List.mem_filter.1 old).1
        · obtain ⟨_, _, rfl⟩ := List.mem_map.1 new
          show s.events.toNat < s.events.toNat + maxSkippedAge.toNat
          omega
  | age =>
      have events := ageStore_events young.clock
      have exact_ := (ageStore_exact young).2
      refine ⟨events.2, ?_, ?_⟩
      · intro k member
        exact (young.stored k (List.mem_filter.1 member).1).trans events.1
      · intro k member
        exact (exact_ k (List.mem_filter.1 member).1).2.1 member

/-! ## Entries that nothing took out -/

/-- A move that does not take an entry out keeps it, unless it has outlived its
age. -/
theorem Move.keeps (move : Move kdf s now s') (young : Young s) {k : SkippedKey K}
    (kept : ∀ e ∈ now, ¬ e.Drops k)
    (here : k ∈ s.skipped ∨ k.storedAt.toNat + maxSkippedAge.toNat ≤ s.events.toNat) :
    k ∈ s'.skipped ∨ k.storedAt.toNat + maxSkippedAge.toNat ≤ s'.events.toNat := by
  rcases here with member | old
  · cases move with
    | send | ratchet | draw => exact .inl member
    | @thin left now sub only logged =>
        refine .inl (Classical.byContradiction fun gone => ?_)
        exact kept _ (logged k member gone) (.inr (.inr rfl))
    | @use dh n k' left taken =>
        obtain ⟨before, after, split_, rest, -, -⟩ := takeFirst_eq_some taken
        rw [split_, List.mem_append, List.mem_cons] at member
        refine .inl (rest ▸ ?_)
        rcases member with early | rfl | late
        · exact List.mem_append_left _ early
        · exact absurd (.inr (.inl rfl)) (kept _ List.mem_cons_self)
        · exact List.mem_append_right _ late
    | @skip ck dhr upto chain peer ahead room =>
        refine .inl (List.mem_append_left _ ?_)
        rw [purgeChainRange_eq]
        refine List.mem_filter.2 ⟨member, ?_⟩
        by_contra passed
        rw [Bool.not_eq_true', Bool.not_eq_false] at passed
        have logged : Event.purged k ∈ skipLog kdf s ck dhr upto :=
          List.mem_append_left _ (List.mem_map_of_mem (List.mem_filter.2 ⟨member, passed⟩))
        exact kept _ logged (.inl rfl)
    | age =>
        have exact_ := ((ageStore_exact young).2 k member).2
        by_cases still : (ageStore s).events.toNat < k.storedAt.toNat + maxSkippedAge.toNat
        · exact .inl (exact_.2 still)
        · exact .inr (not_lt.1 still)
  · refine .inr (old.trans ?_)
    cases move with
    | age => exact (ageStore_events young.clock).1
    | send | ratchet | draw | thin | use | skip => exact le_rfl

/-- An entry that a move stores is there after it. -/
theorem Move.stores (move : Move kdf s now s') {k : SkippedKey K} (stored : .stored k ∈ now) :
    k ∈ s'.skipped := by
  cases move with
  | @skip ck dhr upto chain peer ahead room =>
      rcases List.mem_append.1 stored with dropped | new
      · obtain ⟨k', -, same⟩ := List.mem_map.1 dropped
        simp at same
      · obtain ⟨pair, numbered, same⟩ := List.mem_map.1 new
        rw [Event.stored.injEq] at same
        rw [← same]
        exact List.mem_append_right _ (List.mem_map_of_mem numbered)
  | thin sub only =>
      obtain ⟨k', same⟩ := only _ stored
      simp at same
  | send | age => simp at stored
  | use | ratchet | draw => simp at stored

/-- The entries stored so far, and not taken out since, are there until they have
outlived their age. -/
def Held (past : List (Event K)) (s : State K) : Prop :=
  ∀ k earlier later, past = earlier ++ .stored k :: later → (∀ e ∈ later, ¬ e.Drops k) →
    k ∈ s.skipped ∨ k.storedAt.toNat + maxSkippedAge.toNat ≤ s.events.toNat

/-- Events that split at one of them: it lies behind, or among the new ones. -/
theorem split_past {α : Type} {past now earlier later : List α} {e : α}
    (split_ : past ++ now = earlier ++ e :: later) :
    (∃ rest, past = earlier ++ e :: rest ∧ later = rest ++ now) ∨
      ∃ front, now = front ++ e :: later := by
  rcases List.append_eq_append_iff.1 split_ with ⟨front, -, rest⟩ | ⟨rest, before, after⟩
  · exact .inr ⟨front, rest⟩
  · cases rest with
    | nil => exact .inr ⟨[], by simpa using after.symm⟩
    | cons a rest =>
        rw [List.cons_append, List.cons.injEq] at after
        obtain ⟨rfl, rest_eq⟩ := after
        exact .inl ⟨rest, before, rest_eq⟩

/-- **Every move keeps what is held.** -/
theorem Move.held (move : Move kdf s now s') (young : Young s) (held : Held past s) :
    Held (past ++ now) s' := by
  intro k earlier later split_ kept
  rcases split_past split_ with ⟨rest, before, rfl⟩ | ⟨front, here⟩
  · apply move.keeps young
    · exact fun e member => kept e (List.mem_append_right _ member)
    · exact held k earlier rest before fun e member => kept e (List.mem_append_left _ member)
  · apply Or.inl
    apply move.stores
    rw [here]
    exact List.mem_append_right _ List.mem_cons_self

theorem run_held [DecidableEq K] {first : State K} (started : Started kdf first)
    (calls : List (Call K)) :
    Young ((call kdf).run first calls).1 ∧
      Held ((call kdf).run first calls).2 ((call kdf).run first calls).1 := by
  have start : Young first ∧ Held [] first :=
    ⟨started.young, fun k earlier later split_ => by simp at split_⟩
  have each : ∀ past s now s', Move kdf s now s' → Young s ∧ Held past s →
      Young s' ∧ Held (past ++ now) s' := by
    intro past s now s' move both
    exact ⟨move.young both.1, move.held both.1 both.2⟩
  have kept := Machine.run_keeps (call_moves kdf) each start calls
  rwa [List.nil_append] at kept

/-! ## What each call does to the clock -/

theorem skipMessageKeys_events (kdf : Kdf K) (s : State K) (upto : UInt32) :
    (skipMessageKeys kdf s upto).1.events = s.events := by
  cases ran : skipMessageKeys kdf s upto with
  | mk left result =>
      cases result with
      | error e => rw [skipMessageKeys_error ran]
      | ok => exact (skipMessageKeys_frame ran).2.2.2.1

theorem enterChain_events (kdf : Kdf K) (s : State K) (header : Header) (dhOutRecv dhOutSend : K)
    (newDhsPub : Arr 32) :
    (enterChain kdf s header dhOutRecv dhOutSend newDhsPub).1.events = s.events := by
  by_cases same : s.dhrPub = some header.dh
  · rw [enterChain_same same]
  · have skips := skipMessageKeys_events kdf s header.pn
    rw [enterChain_other same]
    generalize skipMessageKeys kdf s header.pn = skipped at skips ⊢
    obtain ⟨mid, e | done⟩ := skipped
    · exact skips
    · exact skips

/-- **An answered receive steps the clock, a refused one does not.** -/
theorem receive_clock (clock : s.events.toNat < 2 ^ 32 - 1) (header : Header)
    (dhOutRecv dhOutSend : K) (newDhsPub : Arr 32) :
    (∀ mk, (receive kdf s header dhOutRecv dhOutSend newDhsPub).2 = .ok mk →
      (receive kdf s header dhOutRecv dhOutSend newDhsPub).1.events.toNat =
        min (s.events.toNat + 1) maxEvents.toNat) ∧
    ∀ e, (receive kdf s header dhOutRecv dhOutSend newDhsPub).2 = .error e →
      (receive kdf s header dhOutRecv dhOutSend newDhsPub).1.events = s.events := by
  unfold receive
  cases stored : trySkipped s.skipped header with
  | some found =>
      obtain ⟨key, left⟩ := found
      have thinned : ({ s with skipped := left } : State K).events.toNat < 2 ^ 32 - 1 := clock
      constructor
      · intro mk _
        exact ageStore_clock thinned
      · intro e refused
        simp at refused
  | none =>
      have enters := enterChain_events kdf s header dhOutRecv dhOutSend newDhsPub
      simp only
      generalize enterChain kdf s header dhOutRecv dhOutSend newDhsPub = entered at enters ⊢
      obtain ⟨mid, e | done⟩ := entered
      · constructor
        · intro mk accepted
          simp at accepted
        · intro e' _
          exact enters
      · have same : mid.events = s.events := enters
        simp only
        cases ran : advanceChain kdf mid header with
        | mk left result =>
            cases result with
            | error e =>
                constructor
                · intro mk accepted
                  simp at accepted
                · intro e' _
                  rw [advanceChain_error ran, skipMessageKeys_events, same]
            | ok mk =>
                obtain ⟨ahead, ck, next, skipped, -, -, -, -, rfl⟩ := advanceChain_ok ran
                have events : ahead.events = s.events := by
                  rw [(skipMessageKeys_frame skipped).2.2.2.1, same]
                constructor
                · intro mk' _
                  rw [← events] at clock ⊢
                  exact ageStore_clock clock
                · intro e refused
                  simp at refused

theorem skipEvents_stored_at {upto : UInt32} {k : SkippedKey K}
    (stored : .stored k ∈ skipEvents kdf s upto) : k.storedAt = s.events := by
  unfold skipEvents at stored
  split at stored
  · rcases List.mem_append.1 stored with dropped | new
    · obtain ⟨k', -, same⟩ := List.mem_map.1 dropped
      simp at same
    · obtain ⟨pair, -, same⟩ := List.mem_map.1 new
      rw [Event.stored.injEq] at same
      rw [← same]
  · simp at stored

/-- **A key is stored at the reading its receive found.** -/
theorem receive_stored_at {header : Header} {dhOutRecv dhOutSend : K} {newDhsPub : Arr 32}
    {k : SkippedKey K}
    (stored : .stored k ∈ receiveEvents kdf s header dhOutRecv dhOutSend newDhsPub) :
    k.storedAt = s.events := by
  unfold receiveEvents at stored
  split at stored
  · simp at stored
  · rcases List.mem_append.1 stored with entering | advancing
    · unfold enterEvents at entering
      split at entering
      · simp at entering
      · split at entering
        · simp at entering
        · rcases List.mem_append.1 entering with skipping | step
          · exact skipEvents_stored_at skipping
          · simp at step
    · have enters := enterChain_events kdf s header dhOutRecv dhOutSend newDhsPub
      generalize enterChain kdf s header dhOutRecv dhOutSend newDhsPub = entered at *
      obtain ⟨mid, e | done⟩ := entered
      · simp at advancing
      · rw [← show mid.events = s.events from enters]
        rcases List.mem_append.1 advancing with skipping | draw
        · exact skipEvents_stored_at skipping
        · split at draw
          · simp at draw
          · simp at draw

theorem call_stored_at [DecidableEq K] {c : Call K} {k : SkippedKey K}
    (stored : .stored k ∈ (call kdf s c).2) : k.storedAt = s.events := by
  cases c with
  | send => simp [call] at stored
  | receive header dhOutRecv dhOutSend newDhsPub keeps =>
      cases keeps with
      | false => simp [call] at stored
      | true => exact receive_stored_at stored
  | evict count =>
      obtain ⟨k', -, same⟩ := List.mem_map.1 stored
      simp at same

/-- A send moves its own chain and nothing the clock or the store has. -/
theorem send_clock (kdf : Kdf K) (s : State K) :
    (send kdf s).1.events = s.events ∧ (send kdf s).1.skipped = s.skipped := by
  cases ran : send kdf s with
  | mk left result =>
      cases result with
      | error e =>
          rw [send_error ran]
          exact ⟨rfl, rfl⟩
      | ok answer =>
          obtain ⟨ck, next, -, -, -, -, rfl⟩ := send_ok ran
          exact ⟨rfl, rfl⟩

/-- **Aging is exact.**  Wherever a run stands, a key stored and not used, purged
or evicted since is in the store exactly until the clock reads its limit past the
reading it was stored at, and no key is past it.  Sends and receives that are
dropped age nothing, an answered receive steps the clock by one until it stops,
and at the stop too an aging drops what has reached the limit and nothing else,
with every sum and difference in range. -/
theorem aging_exact [DecidableEq K] {first : State K} (started : Started kdf first)
    (calls : List (Call K)) {s : State K} {log : List (Event K)}
    (reached : (call kdf).run first calls = (s, log)) :
    (∀ k earlier later, log = earlier ++ .stored k :: later → (∀ e ∈ later, ¬ e.Drops k) →
      (k ∈ s.skipped ↔ s.events.toNat < k.storedAt.toNat + maxSkippedAge.toNat)) ∧
    (∀ k ∈ s.skipped, s.events.toNat < k.storedAt.toNat + maxSkippedAge.toNat) ∧
    (∀ c k, .stored k ∈ (call kdf s c).2 → k.storedAt = s.events) ∧
    ((send kdf s).1.events = s.events ∧ (send kdf s).1.skipped = s.skipped) ∧
    (∀ header dhOutRecv dhOutSend newDhsPub,
      (call kdf s (.receive header dhOutRecv dhOutSend newDhsPub false)).1 = s ∧
      (∀ mk, (receive kdf s header dhOutRecv dhOutSend newDhsPub).2 = .ok mk →
        (receive kdf s header dhOutRecv dhOutSend newDhsPub).1.events.toNat =
          min (s.events.toNat + 1) maxEvents.toNat)) ∧
    s.events.toNat < 2 ^ 32 - 1 ∧
    (s.events.saturatingAdd 1).toNat = s.events.toNat + 1 ∧
    ∀ k ∈ s.skipped,
      ((ageStore s).events.saturatingSub k.storedAt).toNat + k.storedAt.toNat =
        (ageStore s).events.toNat ∧
      (k ∈ (ageStore s).skipped ↔
        (ageStore s).events.toNat < k.storedAt.toNat + maxSkippedAge.toNat) := by
  have along := run_held started calls
  rw [reached] at along
  obtain ⟨young, held⟩ := along
  have exact_ := ageStore_exact young
  refine ⟨?_, young.young, fun c k => call_stored_at, send_clock kdf s, ?_, young.clock, exact_.1,
    exact_.2⟩
  · intro k earlier later split_ kept
    constructor
    · exact young.young k
    · intro early
      exact (held k earlier later split_ kept).resolve_right (not_le.2 early)
  · intro header dhOutRecv dhOutSend newDhsPub
    exact ⟨rfl, (receive_clock young.clock header dhOutRecv dhOutSend newDhsPub).1⟩

/-- The key of the first message of a chain, when the second arrives before it. -/
def Late.passed : SkippedKey Bytes :=
  match ((call Sample.idealKdf).run Late.start [Late.second]).2 with
  | [_, .stored k, _] => k
  | _ => ⟨Vector.replicate 32 0, 0, 0, []⟩

/-- It is in the store, and the clock has its whole age to go. -/
theorem aging_exact_late :
    Late.passed ∈ ((call Sample.idealKdf).run Late.start [Late.second]).1.skipped := by
  have started : Started Sample.idealKdf Late.start :=
    .receiver [7] (Vector.replicate 32 2) .tacenta
  have log : ((call Sample.idealKdf).run Late.start [Late.second]).2 =
      [.entered (Vector.replicate 32 1)] ++
        .stored Late.passed :: [.drawn (Vector.replicate 32 1) 1] := by decide +kernel
  have exact_ := (aging_exact started [Late.second] Prod.mk.eta.symm).1 Late.passed _ _ log
  exact (exact_ (by simp [Event.Drops])).2 (by decide +kernel)

end Tacenta.Ratchet.State
