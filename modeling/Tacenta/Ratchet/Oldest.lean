/-
# Tacenta.Ratchet.Oldest -- the classical store evicts its oldest keys

`evict_oldest` looks for the least reading afresh for each key it removes, and
takes the first entry that has it.  `oldestFrom_least` says what one scan finds,
and `evictOldest_least` that the removals together take the least entries, by
the reading and then by the position, and leave the others in order.
-/
import Tacenta.Oldest
import Tacenta.Ratchet.Invariant

set_option autoImplicit false

namespace Tacenta.Ratchet

variable {K : Type}

/-- The reading an entry was stored at. -/
def SkippedKey.reading (k : SkippedKey K) : Nat := k.storedAt.toNat

/-- The scan goes on from the first least entry of the part behind it, and ends
at the first least entry of all. -/
theorem oldestFrom_least (done rest : List (SkippedKey K)) {oldest : Nat} {a : SkippedKey K}
    (here : done[oldest]? = some a)
    (least : ∀ j < done.length, j ≠ oldest → Older SkippedKey.reading done oldest j) :
    oldestFrom oldest a.storedAt done.length rest < (done ++ rest).length ∧
      ∀ j < (done ++ rest).length, j ≠ oldestFrom oldest a.storedAt done.length rest →
        Older SkippedKey.reading (done ++ rest) (oldestFrom oldest a.storedAt done.length rest) j := by
  induction rest generalizing done oldest a with
  | nil =>
      have inside := (List.getElem?_eq_some_iff.1 here).1
      rw [List.append_nil]
      exact ⟨inside, least⟩
  | cons k rest ih =>
      have inside := (List.getElem?_eq_some_iff.1 here).1
      have longer : (done ++ [k]).length = done.length + 1 := by
        rw [List.length_append, List.length_singleton]
      have last : (done ++ [k])[done.length]? = some k := by simp
      have still : (done ++ [k])[oldest]? = some a := by
        rw [List.getElem?_append_left inside, here]
      have regroup : done ++ k :: rest = (done ++ [k]) ++ rest := by simp
      rw [oldestFrom, regroup]
      split
      · -- The new entry is less than every one before it.
        rename_i less
        rw [UInt32.lt_iff_toNat_lt] at less
        have next := ih (done ++ [k]) last
        rw [longer] at next
        apply next
        intro j below other
        obtain ⟨b, at_⟩ : ∃ b, done[j]? = some b :=
          ⟨_, List.getElem?_eq_getElem (show j < done.length by omega)⟩
        have most : a.reading ≤ b.reading := by
          by_cases same : j = oldest
          · subst same
            rw [at_, Option.some.injEq] at here
            rw [here]
          · obtain ⟨a', b', ha, hb, order⟩ := least j (by omega) same
            rw [here, Option.some.injEq] at ha
            rw [at_, Option.some.injEq] at hb
            subst ha hb
            omega
        refine ⟨k, b, last, ?_, .inl ?_⟩
        · rw [List.getElem?_append_left (by omega), at_]
        · exact lt_of_lt_of_le less most
      · rename_i notLess
        rw [UInt32.lt_iff_toNat_lt, not_lt] at notLess
        have next := ih (done ++ [k]) still
        rw [longer] at next
        apply next
        intro j below other
        by_cases new : j = done.length
        · subst new
          refine ⟨a, k, still, last, ?_⟩
          have order : a.reading ≤ k.reading := notLess
          omega
        · exact (least j (by omega) other).append [k]

/-- **What an eviction takes**: the `count` least entries, by the reading and
then by the position.  The others stay, in order. -/
theorem evictOldest_least (count : Nat) (l : List (SkippedKey K)) :
    ∃ gone, Least SkippedKey.reading count l gone ∧ evictOldest count l = (without gone l, gone.card) := by
  induction count generalizing l with
  | zero => exact ⟨∅, .zero l, by rw [without_empty]; rfl⟩
  | succ count ih =>
      cases l with
      | nil => exact ⟨∅, .nil _, rfl⟩
      | cons k rest =>
          have found := @oldestFrom_least K [k] rest 0 k rfl (by simp)
          obtain ⟨gone, least, left⟩ := ih ((k :: rest).eraseIdx (oldestFrom 0 k.storedAt 1 rest))
          refine ⟨alsoAt (oldestFrom 0 k.storedAt 1 rest) gone, least.cons found.1 found.2, ?_⟩
          have out : without (alsoAt (oldestFrom 0 k.storedAt 1 rest) gone) (k :: rest) = _ :=
            without_eraseIdx found.1 gone
          rw [evictOldest, left, out, card_alsoAt]
          rfl

/-- Evicting in two goes is evicting in one. -/
theorem evictOldest_add (a b : Nat) (l : List (SkippedKey K)) :
    evictOldest (a + b) l =
      ((evictOldest b (evictOldest a l).1).1,
        (evictOldest a l).2 + (evictOldest b (evictOldest a l).1).2) := by
  induction a generalizing l with
  | zero => rw [Nat.zero_add, evictOldest, Nat.zero_add]
  | succ a ih =>
      cases l with
      | nil =>
          rw [Nat.succ_add, evictOldest, evictOldest]
          cases b <;> rfl
      | cons k rest =>
          rw [Nat.succ_add, evictOldest, evictOldest, ih]
          simp only [Nat.add_right_comm]

end Tacenta.Ratchet
