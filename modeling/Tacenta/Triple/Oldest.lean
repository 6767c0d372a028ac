/-
# Tacenta.Triple.Oldest -- what the two evictions take

The classical store is searched for its least reading, the sparse one is taken
from the front.  `eviction_takes_oldest` says that both take the oldest keys: by
reading and position in the one, by the order they were stored in the other.
-/
import Tacenta.Ratchet.Oldest
import Tacenta.Spqr.History

set_option autoImplicit false

namespace Tacenta.Triple

variable {K : Type}

theorem classical_evictOldest_add (s : Ratchet.State K) (a b : Nat) :
    s.evictOldest (a + b) =
      (((s.evictOldest a).1.evictOldest b).1,
        (s.evictOldest a).2 + ((s.evictOldest a).1.evictOldest b).2) := by
  simp only [Ratchet.State.evictOldest, Ratchet.evictOldest_add]

theorem sparse_evictOldest_add (s : Spqr.State K) (a b : Nat) :
    s.evictOldest (a + b) =
      (((s.evictOldest a).1.evictOldest b).1,
        (s.evictOldest a).2 + ((s.evictOldest a).1.evictOldest b).2) := by
  have total : min (a + b) s.skipped.length =
      min a s.skipped.length + min b (s.skipped.length - a) := by omega
  simp only [Spqr.State.evictOldest, List.drop_drop, List.length_drop, total]

/-- What stands before in a list that is left of another was there before. -/
theorem pair_sublist {α : Type} {l m : List α} (sub : l.Sublist m) {count : Nat} {a b : α}
    (front : a ∈ l.take count) (back : b ∈ l.drop count) : [a, b].Sublist m := by
  have both : ([a] ++ [b]).Sublist (l.take count ++ l.drop count) :=
    (List.singleton_sublist.2 front).append (List.singleton_sublist.2 back)
  rw [List.take_append_drop] at both
  exact both.trans sub

/-- **Eviction takes exactly the oldest keys.**  A classical eviction takes the
least entries by reading and position, as many as were asked for or there are,
and leaves the others in order; two in a row are one.  A sparse one takes the
front of the store, and in every state a run reaches what it takes was stored
before whatever it leaves. -/
theorem eviction_takes_oldest (kdf : Kdf K) :
    (∀ (s : Ratchet.State K) (count : Nat), ∃ gone,
      Least Ratchet.SkippedKey.reading count s.skipped gone ∧
      s.evictOldest count =
        ({ s with skipped := without gone s.skipped }, min count s.skipped.length)) ∧
    (∀ (s : Ratchet.State K) (a b : Nat),
      s.evictOldest (a + b) =
        (((s.evictOldest a).1.evictOldest b).1,
          (s.evictOldest a).2 + ((s.evictOldest a).1.evictOldest b).2)) ∧
    (∀ (s : Spqr.State K) (a b : Nat),
      s.evictOldest (a + b) =
        (((s.evictOldest a).1.evictOldest b).1,
          (s.evictOldest a).2 + ((s.evictOldest a).1.evictOldest b).2)) ∧
    ∀ (sk : Bytes) (direction : Spqr.Direction) (calls : List (Spqr.Call K)) (count : Nat),
      let start : Spqr.State K := .init kdf sk direction
      let s := ((Spqr.State.call kdf).run start calls).1
      let stored := ((Spqr.State.history kdf).run start calls).2
      (stored.Pairwise fun a b => ¬ (a.epoch = b.epoch ∧ a.n = b.n)) ∧
      s.evictOldest count =
        ({ s with skipped := s.skipped.drop count }, min count s.skipped.length) ∧
      ∀ gone ∈ s.skipped.take count, ∀ left ∈ s.skipped.drop count, [gone, left].Sublist stored := by
  refine ⟨?_, classical_evictOldest_add, sparse_evictOldest_add, ?_⟩
  · intro s count
    obtain ⟨gone, least, evicts⟩ := Ratchet.evictOldest_least count s.skipped
    refine ⟨gone, least, ?_⟩
    rw [Ratchet.State.evictOldest, evicts, least.card]
  · intro sk direction calls count
    have filed := Spqr.State.run_filed kdf sk direction calls
    rw [Spqr.State.history_fst] at filed
    refine ⟨filed.once, rfl, ?_⟩
    intro gone front left back
    exact pair_sublist filed.kept front back

end Tacenta.Triple
