/-
# Tacenta.Curve -- canonical curve keys

`is_canonical_x25519` looks at single bytes: the top bit, and whether the value
reaches the field's prime.  X25519 itself drops bit 255 and reduces what is left,
so a key names the `u`-coordinate `uCoordinate k`; `isCanonicalX25519_iff` says
that the check accepts one spelling of each, the encoding of the coordinate.
-/
import Tacenta.Boundary

set_option autoImplicit false

namespace Tacenta

/-! ## Numbers byte by byte -/

theorem ofBe_cons (b : UInt8) (l : Bytes) : ofBe (b :: l) = b.toNat * 256 ^ l.length + ofBe l := by
  induction l using List.reverseRecOn with
  | nil => simp [ofBe]
  | append_singleton l c ih =>
      rw [← List.cons_append, ofBe_append_single, ih, ofBe_append_single, List.length_append,
        List.length_singleton, pow_succ]
      ring

/-- Only a string of `0xff` spells the largest number of its length. -/
theorem ofBe_eq_max {l : Bytes} : ofBe l = 256 ^ l.length - 1 ↔ ∀ b ∈ l, b = 0xff := by
  induction l using List.reverseRecOn with
  | nil => simp [ofBe]
  | append_singleton l c ih =>
      have below := ofBe_lt l
      have byte := c.toNat_lt
      have full : c = 0xff ↔ c.toNat = 255 := by
        rw [← UInt8.toNat_inj]
        rfl
      have split : ofBe l * 256 + c.toNat = 256 ^ (l.length + 1) - 1 ↔
          ofBe l = 256 ^ l.length - 1 ∧ c.toNat = 255 := by
        rw [pow_succ]
        omega
      rw [ofBe_append_single, List.length_append, List.length_singleton, split, ih, ← full]
      simp only [List.mem_append, List.mem_singleton]
      constructor
      · rintro ⟨front, last⟩ b (inside | rfl)
        · exact front b inside
        · exact last
      · intro all
        exact ⟨fun b inside => all b (.inl inside), all c (.inr rfl)⟩

namespace Curve

/-- `2^255 - 19`. -/
def prime : Nat := 2 ^ 255 - 19

/-- The number a key's bytes spell, least significant first. -/
def littleEndian (k : Arr 32) : Nat := ofBe k.toList.reverse

/-- The `u`-coordinate X25519 reads from a key: bit 255 dropped, the rest reduced. -/
def uCoordinate (k : Arr 32) : Nat := littleEndian k % 2 ^ 255 % prime

/-- A coordinate's thirty-two bytes, least significant first. -/
def encodeU (u : Nat) : Bytes := (beBytes 32 u).reverse

/-- `k` is the encoding of the coordinate it names. -/
def Canonical (k : Arr 32) : Prop := k.toList = encodeU (uCoordinate k)

/-- The bytes between the first and the last. -/
def middle (k : Arr 32) : Bytes := (k.toList.drop 1).take 30

theorem length_middle (k : Arr 32) : (middle k).length = 30 := by
  rw [middle, List.length_take, List.length_drop, Arr.length_toList]
  rfl

theorem toList_eq (k : Arr 32) : k.toList = k.get 0 :: (middle k ++ [k.get 31]) := by
  have long : k.toList.length = 32 := Arr.length_toList k
  have first : k.toList = k.get 0 :: k.toList.drop 1 := by
    conv_lhs => rw [← List.drop_zero (l := k.toList), List.drop_eq_getElem_cons (by omega)]
    rw [Vector.getElem_toList]
    rfl
  have last : (k.toList.drop 1).drop 30 = [k.get 31] := by
    rw [List.drop_drop, List.drop_eq_getElem_cons (by omega), Vector.getElem_toList,
      List.drop_eq_nil_of_le (by omega)]
    rfl
  rw [middle, ← last, List.take_append_drop]
  exact first

theorem littleEndian_eq (k : Arr 32) :
    littleEndian k =
      (k.get 0).toNat + 256 * ofBe (middle k).reverse + 256 ^ 31 * (k.get 31).toNat := by
  have length : (middle k).reverse.length = 30 := by rw [List.length_reverse, length_middle]
  rw [littleEndian, toList_eq, List.reverse_cons, ofBe_append_single, List.reverse_append,
    List.reverse_singleton, List.singleton_append, ofBe_cons, length]
  ring

theorem all_middle (k : Arr 32) :
    ((List.finRange 30).all fun i => k.get i.succ.castSucc == 0xff) = true ↔
      ofBe (middle k).reverse = 256 ^ 30 - 1 := by
  have length : (middle k).reverse.length = 30 := by rw [List.length_reverse, length_middle]
  have most := ofBe_eq_max (l := (middle k).reverse)
  rw [length] at most
  rw [most]
  have at_ : ∀ i : Fin 30, (middle k)[i.val]? = some (k.get i.succ.castSucc) := by
    intro i
    rw [middle, List.getElem?_take_of_lt i.isLt, List.getElem?_drop, Nat.add_comm,
      List.getElem?_eq_getElem (by rw [Arr.length_toList]; omega), Vector.getElem_toList]
    rfl
  constructor
  · intro all b member
    obtain ⟨i, here⟩ := List.mem_iff_getElem?.1 (List.mem_reverse.1 member)
    have inside : i < 30 := by
      have := (List.getElem?_eq_some_iff.1 here).1
      rwa [length_middle] at this
    rw [at_ ⟨i, inside⟩, Option.some.injEq] at here
    rw [← here]
    exact beq_iff_eq.1 (List.all_eq_true.1 all ⟨i, inside⟩ (List.mem_finRange _))
  · intro all
    refine List.all_eq_true.2 fun i _ => beq_iff_eq.2 (all _ ?_)
    exact List.mem_reverse.2 (List.mem_of_getElem? (at_ i))

/-- The check is the comparison with the prime. -/
theorem isCanonicalX25519_iff_lt (k : Arr 32) :
    isCanonicalX25519 k = true ↔ littleEndian k < prime := by
  have first := k[0].toNat_lt
  have last := k[31].toNat_lt
  have inner := ofBe_lt (middle k).reverse
  have length : (middle k).reverse.length = 30 := by rw [List.length_reverse, length_middle]
  rw [length] at inner
  have middleFf : ((List.finRange 30).all fun i => k[i.val + 1] == 0xff) = true ↔
      ofBe (middle k).reverse = 256 ^ 30 - 1 := all_middle k
  have spelled : littleEndian k =
      k[0].toNat + 256 * ofBe (middle k).reverse + 256 ^ 31 * k[31].toNat := littleEndian_eq k
  rw [isCanonicalX25519, spelled, prime]
  generalize ((List.finRange 30).all fun i => k[i.val + 1] == 0xff) = full at middleFf ⊢
  generalize ofBe (middle k).reverse = m at *
  by_cases top : k[31] ≥ 0x80
  · have : 128 ≤ k[31].toNat := UInt8.le_iff_toNat_le.1 top
    simp only [top, if_true, Bool.false_eq_true, false_iff]
    omega
  · have top' : k[31].toNat < 128 := by
      have := mt UInt8.le_iff_toNat_le.2 top
      exact Nat.lt_of_not_le this
    have seven : (k[31] == 0x7f) = true ↔ k[31].toNat = 127 := by
      rw [beq_iff_eq, ← UInt8.toNat_inj]
      rfl
    have low : k[0] ≥ 0xed ↔ 237 ≤ k[0].toNat := UInt8.le_iff_toNat_le
    rw [if_neg top, Bool.not_eq_true', ← Bool.not_eq_true, Bool.and_eq_true, Bool.and_eq_true,
      decide_eq_true_iff, seven, middleFf, low]
    omega

theorem encodeU_littleEndian (k : Arr 32) : encodeU (littleEndian k) = k.toList := by
  have same := beBytes_ofBe k.toList.reverse
  rw [List.length_reverse, Arr.length_toList] at same
  rw [encodeU, littleEndian, same, List.reverse_reverse]

/-- **The check accepts the canonical encoding of each coordinate** and no other
spelling of it. -/
theorem isCanonicalX25519_iff {k : Arr 32} : isCanonicalX25519 k = true ↔ Canonical k := by
  have positive : 0 < prime := by norm_num [prime]
  rw [isCanonicalX25519_iff_lt, Canonical]
  constructor
  · intro below
    have short : littleEndian k < 2 ^ 255 := below.trans (by norm_num [prime])
    rw [uCoordinate, Nat.mod_eq_of_lt short, Nat.mod_eq_of_lt below, encodeU_littleEndian]
  · intro canonical
    have reduced : uCoordinate k < prime := Nat.mod_lt _ positive
    have small : uCoordinate k < 256 ^ 32 := reduced.trans (by norm_num [prime])
    rw [littleEndian, canonical, encodeU, List.reverse_reverse, ofBe_beBytes,
      Nat.mod_eq_of_lt small]
    exact reduced

end Curve

end Tacenta
