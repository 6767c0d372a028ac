/-
# Tacenta.Ordered -- encodings that keep an order, and searching an ordered list

A format may ask for its entries in the order of their encodings while the code
compares the entries field by field.  The two agree when each field's encoding
`Keeps` its order: it compares as its field does, and no encoding is a proper
prefix of another, so a comparison of two concatenations is settled by the first
field that differs.  `Keeps.append` composes fields into records.

A list in strictly ascending order is searched by halving; `binarySearch_iff`
says the search finds what is there.
-/
import Tacenta.Format

set_option autoImplicit false

namespace Tacenta

open Std

variable {α β : Type}

/-! ## Byte strings, in the order of their first difference -/

theorem compare_eq_lt_iff {x y : Bytes} : compare x y = .lt ↔ x < y := by
  induction x generalizing y with
  | nil => cases y <;> simp [List.compare_nil_cons]
  | cons a x ih =>
      cases y with
      | nil => simp [List.compare_cons_nil]
      | cons b y =>
          rw [List.compare_cons_cons, Ordering.then_eq_lt, ih, List.cons_lt_cons_iff,
            Std.compare_eq_lt, LawfulEqOrd.compare_eq_iff_eq]

/-- Two concatenations compare by their fronts, and by their tails when the
fronts are equal, unless one front is a proper prefix of the other. -/
theorem compare_append {x y u v : Bytes} (left : x <+: y → x = y) (right : y <+: x → y = x) :
    compare (x ++ u) (y ++ v) = (compare x y).then (compare u v) := by
  induction x generalizing y with
  | nil =>
      have same := left List.nil_prefix
      subst same
      simp
  | cons a x ih =>
      cases y with
      | nil => exact absurd (right List.nil_prefix) (by simp)
      | cons b y =>
          rw [List.cons_append, List.cons_append, List.compare_cons_cons, List.compare_cons_cons,
            Ordering.then_assoc]
          by_cases same : a = b
          · subst same
            have tails := @ih y (fun within => (List.cons.inj (left (by simpa using within))).2)
              (fun within => (List.cons.inj (right (by simpa using within))).2)
            rw [tails]
          · have differ : compare a b ≠ .eq := fun equal =>
              same (LawfulEqOrd.eq_of_compare equal)
            cases decided : compare a b with
            | lt => rfl
            | gt => rfl
            | eq => exact absurd decided differ

/-- Fronts of one length are proper prefixes of none. -/
theorem compare_append_of_length {x y u v : Bytes} (len : x.length = y.length) :
    compare (x ++ u) (y ++ v) = (compare x y).then (compare u v) :=
  compare_append (fun within => within.eq_of_length len) fun within => within.eq_of_length len.symm

/-- One more digit decides where the leading ones do not. -/
theorem compare_then_digit {a b c d : Nat} (hc : c < 256) (hd : d < 256) :
    (compare a b).then (compare c d) = compare (a * 256 + c) (b * 256 + d) := by
  cases leading : compare a b with
  | lt =>
      have below := Nat.compare_eq_lt.1 leading
      have whole : a * 256 + c < b * 256 + d := by omega
      rw [Nat.compare_eq_lt.2 whole, Ordering.lt_then]
  | gt =>
      have above := Nat.compare_eq_gt.1 leading
      have whole : b * 256 + d < a * 256 + c := by omega
      rw [Nat.compare_eq_gt.2 whole, Ordering.gt_then]
  | eq =>
      have same := Nat.compare_eq_eq.1 leading
      subst same
      rw [Ordering.eq_then, Nat.compare_eq_ite_lt, Nat.compare_eq_ite_lt]
      simp only [Nat.add_lt_add_iff_left]

/-- Byte strings of one length compare as the numbers they spell. -/
theorem compare_ofBe {x y : Bytes} (len : x.length = y.length) :
    compare x y = compare (ofBe x) (ofBe y) := by
  induction x using List.reverseRecOn generalizing y with
  | nil =>
      have empty : y = [] := List.length_eq_zero_iff.1 len.symm
      subst empty
      rfl
  | append_singleton x a ih =>
      cases y using List.reverseRecOn with
      | nil => simp at len
      | append_singleton y b =>
          have front : x.length = y.length := by simpa using len
          rw [compare_append_of_length front, ih front, ofBe_append_single, ofBe_append_single,
            ← compare_then_digit a.toNat_lt b.toNat_lt, List.compare_cons_cons,
            List.compare_nil_nil, Ordering.then_eq,
            UInt8.compare_eq_toNat_compare_toNat]

/-! ## Encodings -/

/-- The order of a value that may be missing. -/
def compareOption (cmp : α → α → Ordering) : Option α → Option α → Ordering
  | none, none => .eq
  | none, some _ => .lt
  | some _, none => .gt
  | some a, some b => cmp a b

/-- **The encoding keeps the order**: values compare as their encodings do, and
an encoding that starts another one is that one. -/
structure Keeps (cmp : α → α → Ordering) (encode : α → Bytes) : Prop where
  order : ∀ a b, cmp a b = compare (encode a) (encode b)
  prefixFree : ∀ a b, encode a <+: encode b → encode a = encode b

namespace Keeps

variable {cmp first second : α → α → Ordering} {encode front back : α → Bytes}

/-- Encodings of one width need only compare right. -/
theorem of_width {width : Nat} (wide : ∀ a, (encode a).length = width)
    (order : ∀ a b, cmp a b = compare (encode a) (encode b)) : Keeps cmp encode where
  order := order
  prefixFree a b within := within.eq_of_length ((wide a).trans (wide b).symm)

theorem be32 : Keeps (fun a b : UInt32 => compare a b) Tacenta.be32 := by
  apply of_width length_be32
  intro a b
  have left := a.toNat_lt
  have right := b.toNat_lt
  rw [compare_ofBe (by simp), Tacenta.be32, Tacenta.be32, ofBe_beBytes, ofBe_beBytes,
    Nat.mod_eq_of_lt (by omega), Nat.mod_eq_of_lt (by omega),
    UInt32.compare_eq_toNat_compare_toNat]

theorem be64 : Keeps (fun a b : UInt64 => compare a b) Tacenta.be64 := by
  apply of_width length_be64
  intro a b
  have left := a.toNat_lt
  have right := b.toNat_lt
  rw [compare_ofBe (by simp), Tacenta.be64, Tacenta.be64, ofBe_beBytes, ofBe_beBytes,
    Nat.mod_eq_of_lt (by omega), Nat.mod_eq_of_lt (by omega),
    UInt64.compare_eq_toNat_compare_toNat]

/-- An array is its own encoding. -/
theorem arr (n : Nat) : Keeps (fun a b : Arr n => compare a.toList b.toList) Vector.toList :=
  of_width Arr.length_toList fun _ _ => rfl

/-- A field of a record. -/
theorem on {cmp : β → β → Ordering} {encode : β → Bytes} (keeps : Keeps cmp encode) (f : α → β) :
    Keeps (fun a b => cmp (f a) (f b)) fun a => encode (f a) where
  order a b := keeps.order (f a) (f b)
  prefixFree a b := keeps.prefixFree (f a) (f b)

/-- **Fields one after the other**: the first difference decides. -/
theorem append (one : Keeps first front) (two : Keeps second back) :
    Keeps (fun a b => (first a b).then (second a b)) fun a => front a ++ back a where
  order a b := by
    rw [compare_append (one.prefixFree a b) (one.prefixFree b a), one.order, two.order]
  prefixFree a b within := by
    have reaches : front a <+: front b ++ back b := (List.prefix_append _ _).trans within
    have fronts : front a = front b := by
      rcases List.prefix_or_prefix_of_prefix reaches (List.prefix_append _ _) with short | long
      · exact one.prefixFree a b short
      · exact (one.prefixFree b a long).symm
    rw [fronts] at within ⊢
    rw [two.prefixFree a b ((List.prefix_append_right_inj _).1 within)]

/-- A value that may be missing, behind a tag: a missing one comes first. -/
theorem tagged {cmp : β → β → Ordering} {encode : β → Bytes} (keeps : Keeps cmp encode) :
    Keeps (compareOption cmp) (writeTagged encode) where
  order a b := by
    cases a with
    | none =>
        cases b with
        | none => rfl
        | some b => rfl
    | some a =>
        cases b with
        | none => rfl
        | some b => exact keeps.order a b
  prefixFree a b within := by
    cases a with
    | none =>
        cases b with
        | none => rfl
        | some b => simp [writeTagged] at within
    | some a =>
        cases b with
        | none => simp [writeTagged] at within
        | some b =>
            have inner : encode a <+: encode b := (List.cons_prefix_cons.1 within).2
            rw [writeTagged, writeTagged, keeps.prefixFree a b inner]

variable (keeps : Keeps cmp encode)

include keeps in
/-- Below in the order is below in the order of the encodings. -/
theorem lt_iff (a b : α) : cmp a b = .lt ↔ encode a < encode b := by
  rw [keeps.order, compare_eq_lt_iff]

include keeps in
theorem swap (a b : α) : cmp a b = (cmp b a).swap := by
  rw [keeps.order, keeps.order b a, OrientedOrd.eq_swap (α := Bytes)]

include keeps in
theorem lt_trans {a b c : α} (ab : cmp a b = .lt) (bc : cmp b c = .lt) : cmp a c = .lt := by
  rw [keeps.order] at *
  exact TransCmp.lt_trans ab bc

include keeps in
theorem eq_iff (injective : Function.Injective encode) (a b : α) : cmp a b = .eq ↔ a = b := by
  rw [keeps.order, LawfulEqOrd.compare_eq_iff_eq, injective.eq_iff]

end Keeps

/-! ## Lists in strictly ascending order -/

/-- Every entry comes before those that follow it. -/
def Ascending (cmp : α → α → Ordering) (l : List α) : Prop := l.Pairwise fun a b => cmp a b = .lt

/-- The window a search by halving ends in. -/
def narrow (order : α → Ordering) : Nat → List α → List α
  | 0, window => window
  | fuel + 1, window =>
      if window.length ≤ 1 then window
      else
        let half := window.length / 2
        match window[half]? with
        | none => window
        | some mid =>
            if order mid = .gt then narrow order fuel (window.take (window.length - half))
            else narrow order fuel (window.drop half)

/-- `slice::binary_search`, as whether it found the entry. -/
def binarySearch (order : α → Ordering) (l : List α) : Bool :=
  match narrow order l.length l with
  | [] => false
  | last :: _ => order last = .eq

/-- A window holds nothing the list does not. -/
theorem narrow_sublist (order : α → Ordering) (fuel : Nat) (window : List α) :
    (narrow order fuel window).Sublist window := by
  induction fuel generalizing window with
  | zero => exact .refl window
  | succ fuel ih =>
      unfold narrow
      split
      · exact .refl window
      · dsimp only
        split
        · exact .refl window
        · split
          · exact (ih _).trans (List.take_sublist _ _)
          · exact (ih _).trans (List.drop_sublist _ _)

/-- Enough halvings leave at most one entry. -/
theorem length_narrow (order : α → Ordering) {fuel : Nat} {window : List α}
    (enough : window.length ≤ fuel + 1) : (narrow order fuel window).length ≤ 1 := by
  induction fuel generalizing window with
  | zero => exact enough
  | succ fuel ih =>
      unfold narrow
      split
      · assumption
      · rename_i long
        dsimp only
        split
        · rename_i missing
          rw [List.getElem?_eq_none_iff] at missing
          omega
        · split
          · apply ih
            rw [List.length_take]
            omega
          · apply ih
            rw [List.length_drop]
            omega

section Search

variable {cmp : α → α → Ordering} {encode : α → Bytes} (keeps : Keeps cmp encode)

include keeps in
/-- Halving an ordered window keeps the entry that is looked for. -/
theorem mem_narrow {target a : α} (found : cmp a target = .eq) (fuel : Nat) {window : List α}
    (sorted : Ascending cmp window) (here : a ∈ window) :
    a ∈ narrow (cmp · target) fuel window := by
  have equal : encode a = encode target := by
    rw [keeps.order] at found
    exact LawfulEqOrd.eq_of_compare found
  have same : ∀ b, cmp b target = cmp b a := by
    intro b
    rw [keeps.order, keeps.order b a, equal]
  induction fuel generalizing window with
  | zero => exact here
  | succ fuel ih =>
      unfold narrow
      split
      · exact here
      · rename_i long
        have short : window.length / 2 < window.length := by omega
        have back := List.drop_eq_getElem_cons short
        have parts := sorted
        have whole := here
        rw [Ascending, ← List.take_append_drop (window.length / 2) window, back,
          List.pairwise_append, List.pairwise_cons] at parts
        rw [← List.take_append_drop (window.length / 2) window, back] at whole
        obtain ⟨-, ⟨after, -⟩, before⟩ := parts
        dsimp only
        rw [List.getElem?_eq_getElem short]
        dsimp only
        split
        · rename_i above
          apply ih (sorted.sublist (List.take_sublist _ _))
          rw [same] at above
          rcases List.mem_append.1 whole with front | later
          · exact List.take_subset_take_left _ (by omega) front
          · rcases List.mem_cons.1 later with middle | last
            · rw [← middle, keeps.order, compare_self] at above
              cases above
            · rw [after a last] at above
              cases above
        · rename_i notAbove
          apply ih (sorted.sublist (List.drop_sublist _ _))
          rw [same] at notAbove
          rcases List.mem_append.1 whole with front | later
          · have below := before a front _ List.mem_cons_self
            rw [keeps.swap, below] at notAbove
            exact absurd rfl notAbove
          · rwa [back]

include keeps in
/-- **A search by halving finds what is there**, in a list in ascending order. -/
theorem binarySearch_iff {target : α} {l : List α} (sorted : Ascending cmp l) :
    binarySearch (cmp · target) l = true ↔ ∃ a ∈ l, cmp a target = .eq := by
  have within := narrow_sublist (cmp · target) l.length l
  have single := length_narrow (cmp · target) (Nat.le_succ l.length)
  unfold binarySearch
  constructor
  · intro hit
    cases last : narrow (cmp · target) l.length l with
    | nil => simp [last] at hit
    | cons a rest =>
        rw [last] at hit within
        exact ⟨a, within.subset (by simp), by simpa using hit⟩
  · rintro ⟨a, here, found⟩
    have kept := mem_narrow keeps found l.length sorted here
    cases last : narrow (cmp · target) l.length l with
    | nil => simp [last] at kept
    | cons b rest =>
        rw [last] at kept single
        have alone : rest = [] := by
          cases rest with
          | nil => rfl
          | cons c rest => simp at single
        subst alone
        have same : a = b := by simpa using kept
        subst same
        simpa using found

end Search

end Tacenta
