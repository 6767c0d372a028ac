/-
# Tacenta.Base128 -- numbers seven bits a byte

A number is written low group first, and every byte but the last has its top bit
set.  `spell n` stops as soon as nothing is left, so it ends in a zero byte only
for zero itself: the minimal spelling, and the only one of its kind.
-/
import Tacenta.Words

set_option autoImplicit false

namespace Tacenta.Base128

/-- The minimal spelling of a number. -/
def spell (n : Nat) : Bytes :=
  if n < 128 then [UInt8.ofNat n] else UInt8.ofNat (n % 128 + 128) :: spell (n / 128)
termination_by n
decreasing_by omega

theorem spell_small {n : Nat} (small : n < 128) : spell n = [UInt8.ofNat n] := by
  rw [spell, if_pos small]

theorem spell_large {n : Nat} (large : 128 ≤ n) :
    spell n = UInt8.ofNat (n % 128 + 128) :: spell (n / 128) := by
  rw [spell, if_neg (by omega)]

/-- A byte that ends a number spells it. -/
theorem spell_last {b : UInt8} (last : b < 128) : spell b.toNat = [b] := by
  have small : b.toNat < 128 := UInt8.lt_iff_toNat_lt.1 last
  rw [spell_small small, UInt8.ofNat_toNat]

/-- A byte that does not end a number has its top bit set. -/
theorem top_bit {b : UInt8} (more : ¬b < 128) : 128 ≤ b.toNat := by
  have := mt UInt8.lt_iff_toNat_lt.2 more
  exact Nat.le_of_not_lt this

/-- A byte that does not end a number goes before the rest of it. -/
theorem spell_cons {b : UInt8} (more : ¬b < 128) {m : Nat} (positive : m ≠ 0) :
    spell (b.toNat - 128 + 128 * m) = b :: spell m := by
  have large := top_bit more
  have width := b.toNat_lt
  rw [spell_large (by omega)]
  have low : (b.toNat - 128 + 128 * m) % 128 + 128 = b.toNat := by omega
  have high : (b.toNat - 128 + 128 * m) / 128 = m := by omega
  rw [low, high, UInt8.ofNat_toNat]

/-- The first byte of a number and what is left of it. -/
theorem spell_eq_cons (n : Nat) :
    (n < 128 ∧ spell n = [UInt8.ofNat n]) ∨
    (128 ≤ n ∧ ∃ b : UInt8, ¬b < 128 ∧ b.toNat - 128 = n % 128 ∧ spell n = b :: spell (n / 128)) := by
  by_cases small : n < 128
  · exact .inl ⟨small, spell_small small⟩
  · have byte : (UInt8.ofNat (n % 128 + 128)).toNat = n % 128 + 128 := by
      rw [UInt8.toNat_ofNat', Nat.mod_eq_of_lt (by omega)]
    refine .inr ⟨by omega, UInt8.ofNat (n % 128 + 128), ?_, by omega, spell_large (by omega)⟩
    rw [UInt8.lt_iff_toNat_lt, byte]
    show ¬n % 128 + 128 < 128
    omega

theorem length_spell_pos (n : Nat) : 0 < (spell n).length := by
  obtain ⟨-, spelled⟩ | ⟨-, b, -, -, spelled⟩ := spell_eq_cons n <;> rw [spelled] <;> simp

end Tacenta.Base128
