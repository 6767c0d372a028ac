/-
# Tacenta.Oldest -- the least entries of a list, by a reading and then by position

`Least count l gone` says that the positions `gone` are the `count` least of `l`:
by the reading, and among equal readings by the position.  There is only one
such set (`Least.unique`), and taking the least entry and then the `count` least
of what is left takes the `count + 1` least (`Least.cons`).  `without gone l` is
the rest of the list, in its order.
-/
import Mathlib

set_option autoImplicit false

namespace Tacenta

variable {α : Type}

/-! ## Leaving positions out -/

/-- The list `l`, whose first position is `i`, without the positions in `gone`. -/
def withoutFrom (gone : Finset Nat) : Nat → List α → List α
  | _, [] => []
  | i, a :: rest =>
      if i ∈ gone then withoutFrom gone (i + 1) rest else a :: withoutFrom gone (i + 1) rest

/-- The list without the positions in `gone`, in its order. -/
def without (gone : Finset Nat) (l : List α) : List α := withoutFrom gone 0 l

theorem withoutFrom_congr {gone gone' : Finset Nat} {i j : Nat} {l : List α}
    (same : ∀ k < l.length, i + k ∈ gone ↔ j + k ∈ gone') :
    withoutFrom gone i l = withoutFrom gone' j l := by
  induction l generalizing i j with
  | nil => rfl
  | cons a rest ih =>
      have here : i ∈ gone ↔ j ∈ gone' := same 0 (Nat.succ_pos _)
      have later : withoutFrom gone (i + 1) rest = withoutFrom gone' (j + 1) rest := by
        apply ih
        intro k below
        have next := same (k + 1) (Nat.succ_lt_succ below)
        rwa [show i + (k + 1) = i + 1 + k by omega, show j + (k + 1) = j + 1 + k by omega] at next
      rw [withoutFrom, withoutFrom, later]
      by_cases out : i ∈ gone
      · rw [if_pos out, if_pos (here.1 out)]
      · rw [if_neg out, if_neg (mt here.2 out)]

theorem withoutFrom_append (gone : Finset Nat) (i : Nat) (l m : List α) :
    withoutFrom gone i (l ++ m) = withoutFrom gone i l ++ withoutFrom gone (i + l.length) m := by
  induction l generalizing i with
  | nil => rfl
  | cons a rest ih =>
      have shift : i + (a :: rest).length = i + 1 + rest.length := by
        rw [List.length_cons]
        omega
      rw [List.cons_append, withoutFrom, withoutFrom, ih, shift]
      split
      · rfl
      · rfl

theorem without_empty (l : List α) : without ∅ l = l := by
  have all : ∀ i, withoutFrom ∅ i l = l := by
    induction l with
    | nil => intro i; rfl
    | cons a rest ih =>
        intro i
        rw [withoutFrom, if_neg (Finset.notMem_empty i), ih]
  exact all 0

/-- Where a position of a list without position `m` stood in the whole list. -/
def before (m i : Nat) : Nat := if i < m then i else i + 1

theorem before_inj {m i j : Nat} (same : before m i = before m j) : i = j := by
  unfold before at same
  split at same <;> split at same <;> omega

theorem before_ne (m i : Nat) : before m i ≠ m := by
  unfold before
  split <;> omega

theorem exists_before {m i : Nat} (other : i ≠ m) : ∃ j, before m j = i := by
  by_cases low : i < m
  · exact ⟨i, if_pos low⟩
  · refine ⟨i - 1, ?_⟩
    rw [before, if_neg (by omega)]
    omega

/-- The positions `m` and those of `gone`, which are counted without `m`. -/
def alsoAt (m : Nat) (gone : Finset Nat) : Finset Nat := insert m (gone.image (before m))

theorem before_mem {m i : Nat} {gone : Finset Nat} : before m i ∈ alsoAt m gone ↔ i ∈ gone := by
  rw [alsoAt, Finset.mem_insert, Finset.mem_image]
  constructor
  · rintro (here | ⟨j, inside, same⟩)
    · exact absurd here (before_ne m i)
    · rwa [← before_inj same]
  · intro inside
    exact .inr ⟨i, inside, rfl⟩

theorem card_alsoAt (m : Nat) (gone : Finset Nat) : (alsoAt m gone).card = gone.card + 1 := by
  have apart : m ∉ gone.image (before m) := by
    intro member
    obtain ⟨j, -, same⟩ := Finset.mem_image.1 member
    exact before_ne m j same
  rw [alsoAt, Finset.card_insert_of_notMem apart,
    Finset.card_image_of_injective _ fun _ _ => before_inj]

/-- Leaving out `m` and then `gone` leaves out both. -/
theorem without_eraseIdx {l : List α} {m : Nat} (inside : m < l.length) (gone : Finset Nat) :
    without (alsoAt m gone) l = without gone (l.eraseIdx m) := by
  have front : (l.take m).length = m := List.length_take_of_le inside.le
  have split_ : l = l.take m ++ l[m] :: l.drop (m + 1) := by
    rw [← List.drop_eq_getElem_cons inside, List.take_append_drop]
  have low : withoutFrom (alsoAt m gone) 0 (l.take m) = withoutFrom gone 0 (l.take m) := by
    apply withoutFrom_congr
    intro k below
    rw [front] at below
    have same : before m k = k := if_pos below
    have step : before m k ∈ alsoAt m gone ↔ k ∈ gone := before_mem
    rw [same] at step
    rw [Nat.zero_add]
    exact step
  have high : withoutFrom (alsoAt m gone) (m + 1) (l.drop (m + 1)) =
      withoutFrom gone m (l.drop (m + 1)) := by
    apply withoutFrom_congr
    intro k _
    have same : before m (m + k) = m + 1 + k := by
      rw [before, if_neg (by omega)]
      omega
    have step : before m (m + k) ∈ alsoAt m gone ↔ m + k ∈ gone := before_mem
    rw [same] at step
    exact step
  have out : m ∈ alsoAt m gone := Finset.mem_insert_self _ _
  conv_lhs => rw [split_]
  rw [without, without, List.eraseIdx_eq_take_drop_succ, withoutFrom_append, withoutFrom_append,
    front, Nat.zero_add, withoutFrom, if_pos out, low, high]

/-! ## The least positions -/

section Least

variable (reading : α → Nat)

/-- Position `i` of `l` comes before position `j`: by the reading, then by the position. -/
def Older (l : List α) (i j : Nat) : Prop :=
  ∃ a b, l[i]? = some a ∧ l[j]? = some b ∧
    (reading a < reading b ∨ (reading a = reading b ∧ i < j))

/-- The positions `gone` are the `count` least of `l`, or all of a shorter list. -/
structure Least (count : Nat) (l : List α) (gone : Finset Nat) : Prop where
  inside : ∀ i ∈ gone, i < l.length
  card : gone.card = min count l.length
  least : ∀ i ∈ gone, ∀ j < l.length, j ∉ gone → Older reading l i j

variable {reading}

theorem Older.asymm {l : List α} {i j : Nat} (one : Older reading l i j) :
    ¬ Older reading l j i := by
  obtain ⟨a, b, ha, hb, order⟩ := one
  rintro ⟨b', a', hb', ha', order'⟩
  rw [ha, Option.some.injEq] at ha'
  rw [hb, Option.some.injEq] at hb'
  subst ha' hb'
  omega

theorem Least.zero (l : List α) : Least reading 0 l ∅ :=
  ⟨by simp, by simp, by simp⟩

theorem Least.nil (count : Nat) : Least reading count ([] : List α) ∅ :=
  ⟨by simp, by simp, by simp⟩

/-- Entries added behind a list leave its order alone. -/
theorem Older.append {l : List α} {i j : Nat} (older : Older reading l i j) (m : List α) :
    Older reading (l ++ m) i j := by
  obtain ⟨a, b, ha, hb, order⟩ := older
  have inside := (List.getElem?_eq_some_iff.1 ha).1
  have inside' := (List.getElem?_eq_some_iff.1 hb).1
  refine ⟨a, b, ?_, ?_, order⟩
  · rw [List.getElem?_append_left inside, ha]
  · rw [List.getElem?_append_left inside', hb]

/-- **The least set is unique.** -/
theorem Least.unique {count : Nat} {l : List α} {gone gone' : Finset Nat}
    (one : Least reading count l gone) (other : Least reading count l gone') : gone = gone' := by
  have size : gone.card = gone'.card := one.card.trans other.card.symm
  apply Finset.eq_of_subset_of_card_le ?_ size.ge
  intro i member
  by_contra absent
  -- A set of the same size then holds a position that this one leaves out.
  have more : ¬ gone' ⊆ gone := by
    intro sub
    exact absent (Finset.eq_of_subset_of_card_le sub size.le ▸ member)
  obtain ⟨j, here, missing⟩ := Finset.not_subset.1 more
  exact (one.least i member j (other.inside j here) missing).asymm
    (other.least j here i (one.inside i member) absent)

theorem Older.eraseIdx {l : List α} {m i j : Nat} (older : Older reading (l.eraseIdx m) i j) :
    Older reading l (before m i) (before m j) := by
  have at_ : ∀ i, (l.eraseIdx m)[i]? = l[before m i]? := by
    intro i
    rw [List.getElem?_eraseIdx, before]
    split
    · rfl
    · rfl
  obtain ⟨a, b, ha, hb, order⟩ := older
  rw [at_] at ha hb
  refine ⟨a, b, ha, hb, order.imp_right ?_⟩
  rintro ⟨same, below⟩
  refine ⟨same, ?_⟩
  unfold before
  split <;> split <;> omega

/-- **The least entry, and the least of the others**, are the least of all. -/
theorem Least.cons {count m : Nat} {l : List α} {gone : Finset Nat} (inside : m < l.length)
    (first : ∀ j < l.length, j ≠ m → Older reading l m j)
    (rest : Least reading count (l.eraseIdx m) gone) :
    Least reading (count + 1) l (alsoAt m gone) := by
  have shorter : (l.eraseIdx m).length = l.length - 1 := List.length_eraseIdx_of_lt inside
  have within : ∀ {i}, i < l.length - 1 → before m i < l.length := by
    intro i below
    unfold before
    split <;> omega
  refine ⟨?_, ?_, ?_⟩
  · intro i member
    rcases Finset.mem_insert.1 member with rfl | later
    · exact inside
    · obtain ⟨j, here, rfl⟩ := Finset.mem_image.1 later
      exact within (shorter ▸ rest.inside j here)
  · rw [card_alsoAt, rest.card, shorter]
    omega
  · intro i member j below absent
    have other : j ≠ m := by
      rintro rfl
      exact absent (Finset.mem_insert_self _ _)
    rcases Finset.mem_insert.1 member with rfl | later
    · exact first j below other
    · obtain ⟨i', here, rfl⟩ := Finset.mem_image.1 later
      obtain ⟨j', rfl⟩ := exists_before other
      apply Older.eraseIdx
      apply rest.least i' here
      · rw [shorter]
        unfold before at below
        split at below <;> omega
      · exact fun inside' => absent (before_mem.2 inside')

end Least

end Tacenta
