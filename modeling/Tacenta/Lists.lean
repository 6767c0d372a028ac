/-
# Tacenta.Lists -- stores kept as lists of entries

The crates keep their stores as vectors of entries and look them up by scanning.
Two removals appear: taking the first entry that matches and closing the gap
(`takeFirst`), and replacing the entry by the last one (`swapRemove`).  Both are
defined over an arbitrary entry type, with the splitting lemma that says what
was taken and what is left.
-/
import Mathlib

set_option autoImplicit false

namespace Tacenta

variable {α : Type}

/-- The first entry satisfying `p`, and the rest in order. -/
def takeFirst (p : α → Bool) : List α → Option (α × List α)
  | [] => none
  | a :: rest =>
      if p a then some (a, rest) else (takeFirst p rest).map fun found => (found.1, a :: found.2)

theorem takeFirst_eq_none {p : α → Bool} {l : List α} :
    takeFirst p l = none ↔ ∀ a ∈ l, p a = false := by
  induction l with
  | nil => simp [takeFirst]
  | cons a rest ih =>
      by_cases h : p a = true
      · simp [takeFirst, h]
      · simp [takeFirst, h, ih]

/-- What was taken satisfies `p`, nothing before it does, and what is left is
the list without it. -/
theorem takeFirst_eq_some {p : α → Bool} {l rest : List α} {a : α}
    (taken : takeFirst p l = some (a, rest)) :
    ∃ before after, l = before ++ a :: after ∧ rest = before ++ after ∧ p a = true ∧
      ∀ b ∈ before, p b = false := by
  induction l generalizing rest with
  | nil => simp [takeFirst] at taken
  | cons b tail ih =>
      by_cases h : p b = true
      · simp only [takeFirst, h, if_true, Option.some.injEq, Prod.mk.injEq] at taken
        obtain ⟨rfl, rfl⟩ := taken
        exact ⟨[], tail, rfl, rfl, h, by simp⟩
      · simp only [takeFirst, h, if_false, Option.map_eq_some_iff, Prod.mk.injEq,
          Bool.false_eq_true] at taken
        obtain ⟨⟨a', rest'⟩, found, rfl, rfl⟩ := taken
        obtain ⟨before, after, rfl, rfl, pa, none⟩ := ih found
        exact ⟨b :: before, after, rfl, rfl, pa, by simpa [h] using none⟩

theorem takeFirst_sublist {p : α → Bool} {l rest : List α} {a : α}
    (taken : takeFirst p l = some (a, rest)) : rest.Sublist l := by
  obtain ⟨before, after, rfl, rfl, -, -⟩ := takeFirst_eq_some taken
  exact (List.Sublist.refl before).append (List.sublist_cons_self a after)

theorem takeFirst_mem {p : α → Bool} {l rest : List α} {a : α}
    (taken : takeFirst p l = some (a, rest)) : a ∈ l ∧ p a = true := by
  obtain ⟨before, after, rfl, -, pa, -⟩ := takeFirst_eq_some taken
  exact ⟨by simp, pa⟩

/-- Overwrite the first entry satisfying `p` with `last`. -/
def overwriteFirst (p : α → Bool) (last : α) : List α → List α
  | [] => []
  | a :: rest => if p a then last :: rest else a :: overwriteFirst p last rest

/-- Swap the first entry satisfying `p` with the last one and drop it from the
end; the list is unchanged when no entry satisfies `p`. -/
def swapRemove (p : α → Bool) (l : List α) : List α :=
  match l.getLast? with
  | none => []
  | some last =>
      if l.any p then
        if l.dropLast.any p then overwriteFirst p last l.dropLast else l.dropLast
      else l

theorem overwriteFirst_split {p : α → Bool} {l : List α} (last : α) (found : l.any p = true) :
    ∃ before a after, l = before ++ a :: after ∧ p a = true ∧ (∀ b ∈ before, p b = false) ∧
      overwriteFirst p last l = before ++ last :: after := by
  induction l with
  | nil => simp at found
  | cons b rest ih =>
      by_cases h : p b = true
      · exact ⟨[], b, rest, rfl, h, by simp, by simp [overwriteFirst, h]⟩
      · have tail : rest.any p = true := by simpa [h] using found
        obtain ⟨before, a, after, rfl, pa, none, eq⟩ := ih tail
        exact ⟨b :: before, a, after, rfl, pa, by simpa [h] using none,
          by simp [overwriteFirst, h, eq]⟩

theorem swapRemove_of_none {p : α → Bool} {l : List α} (none_ : ∀ a ∈ l, p a = false) :
    swapRemove p l = l := by
  have hany : l.any p = false := by simpa using none_
  unfold swapRemove
  cases h : l.getLast? with
  | none => exact (List.getLast?_eq_none_iff.1 h).symm
  | some last => simp [hany]

/-- **What `swapRemove` takes**: the first entry satisfying `p`, and nothing
else; the others stay, as a multiset. -/
theorem swapRemove_perm {p : α → Bool} {l : List α} (found : l.any p = true) :
    ∃ before a after, l = before ++ a :: after ∧ p a = true ∧ (∀ b ∈ before, p b = false) ∧
      (swapRemove p l).Perm (before ++ after) := by
  obtain ⟨front, last, rfl⟩ : ∃ front last, l = front ++ [last] := by
    rcases List.eq_nil_or_concat l with rfl | ⟨front, last, rfl⟩
    · simp at found
    · exact ⟨front, last, by simp⟩
  unfold swapRemove
  simp only [List.getLast?_append, List.getLast?_singleton, Option.some_or, found, if_true,
    List.dropLast_concat]
  by_cases early : front.any p = true
  · rw [if_pos early]
    obtain ⟨before, a, after, rfl, pa, none_, eq⟩ := overwriteFirst_split last early
    refine ⟨before, a, after ++ [last], by simp, pa, none_, ?_⟩
    rw [eq, ← List.append_assoc]
    exact List.perm_middle.trans (List.perm_append_singleton _ _).symm
  · rw [if_neg early]
    refine ⟨front, last, [], rfl, ?_, by simpa using early, by simp⟩
    simpa [early] using found

/-- Pairing up keeps the order of the first list, as far as the second goes. -/
theorem map_fst_zip_sublist {α β : Type} (l : List α) (m : List β) :
    ((l.zip m).map Prod.fst).Sublist l := by
  induction l generalizing m with
  | nil => simp
  | cons a rest ih =>
      cases m with
      | nil => simp
      | cons b later => simpa using (ih later).cons_cons a

theorem map_snd_zip_sublist {α β : Type} (l : List α) (m : List β) :
    ((l.zip m).map Prod.snd).Sublist m := by
  have swapped : (l.zip m).map Prod.snd = (m.zip l).map Prod.fst := by
    rw [← List.zip_swap m l, List.map_map]
    rfl
  rw [swapped]
  exact map_fst_zip_sublist m l

/-- Values are distinct along a list where those that name them are. -/
theorem nodup_filterMap_of {ε α β : Type} {f : ε → Option α} {g : ε → Option β} {l : List ε}
    (once : (l.filterMap g).Nodup) (names : ∀ a ∈ l, ∀ b ∈ l, ∀ x, f a = some x → f b = some x →
      ∃ y, g a = some y ∧ g b = some y) : (l.filterMap f).Nodup := by
  rw [List.Nodup, List.pairwise_filterMap] at once ⊢
  refine List.Pairwise.imp_of_mem ?_ once
  rintro a b left right apart x hx _ hy rfl
  obtain ⟨y, hy, hy'⟩ := names a left b right x hx hy
  exact apart y hy y hy' rfl

/-- What holds pairwise along a list holds along one that follows it entry by entry. -/
theorem pairwise_of_forall₂ {α β : Type} {follows : α → β → Prop} {apart : α → α → Prop}
    {apart' : β → β → Prop} {l : List α} {m : List β} (along : List.Forall₂ follows l m)
    (keeps : ∀ a b a' b', follows a a' → follows b b' → apart' a' b' → apart a b)
    (pairwise : m.Pairwise apart') : l.Pairwise apart := by
  induction along with
  | nil => exact .nil
  | @cons a a' l m first rest ih =>
      rw [List.pairwise_cons] at pairwise ⊢
      refine ⟨fun b member => ?_, ih pairwise.2⟩
      obtain ⟨i, inside, rfl⟩ := List.getElem_of_mem member
      have inside' : i < m.length := rest.length_eq ▸ inside
      exact keeps a _ a' _ first (List.Forall₂.get rest inside inside')
        (pairwise.1 _ (List.getElem_mem inside'))

end Tacenta
