/-
# Tacenta.Maps -- lists of entries, read as maps

A store kept as a list stands for a map: the entry it holds under a name is the
first one the name matches.  A range of names is overwritten by dropping what
they match and appending the new entries; `find?_replaced_inside` and
`find?_replaced_outside` say what the map is afterwards, and
`find?_numbered` reads the entries appended, which are numbered in a row.
-/
import Mathlib

set_option autoImplicit false

namespace Tacenta

variable {α : Type} {p gone : α → Bool} {l fresh : List α}

/-- A name inside the range finds what was appended. -/
theorem find?_replaced_inside (inside : ∀ a, p a = true → gone a = true) :
    ((l.filter fun a => !gone a) ++ fresh).find? p = fresh.find? p := by
  have dropped : (l.filter fun a => !gone a).find? p = none := by
    rw [List.find?_eq_none]
    intro a member named
    have stays := (List.mem_filter.1 member).2
    rw [inside a named] at stays
    simp at stays
  rw [List.find?_append, dropped, Option.none_or]

/-- A name outside the range finds what it found before. -/
theorem find?_replaced_outside (outside : ∀ a, p a = true → gone a = false)
    (apart : ∀ a ∈ fresh, p a = false) :
    ((l.filter fun a => !gone a) ++ fresh).find? p = l.find? p := by
  have absent : fresh.find? p = none := by
    rw [List.find?_eq_none]
    intro a member named
    rw [apart a member] at named
    simp at named
  have kept : (l.filter fun a => !gone a).find? p = l.find? p := by
    rw [List.find?_filter]
    refine congrArg (fun q => List.find? q l) (funext fun a => ?_)
    by_cases named : p a = true
    · simp [named, outside a named]
    · simp [named]
  rw [List.find?_append, absent, kept, Option.or_none]

/-- The entry a name finds in a row of entries is the one at its position. -/
theorem find?_numbered {f : Nat → α} {count i : Nat} (inside : i < count)
    (named : ∀ j < count, p (f j) = decide (j = i)) :
    ((List.range count).map f).find? p = some (f i) := by
  rw [List.find?_map, Option.map_eq_some_iff]
  refine ⟨i, ?_, rfl⟩
  rw [List.find?_range_eq_some]
  refine ⟨?_, List.mem_range.2 inside, fun j below => ?_⟩
  · show p (f i) = true
    rw [named i inside]
    exact decide_eq_true rfl
  · show (!p (f j)) = true
    rw [named j (by omega), decide_eq_false (by omega)]
    rfl

end Tacenta
