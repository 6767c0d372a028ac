/-
# Tacenta.Curve.Copies -- one canonicality check, four copies of it

The ratchet, session and wire crates each hold a copy of one pattern test: the
top bit, then whether the bytes spell the prime or more.  The boundary crate
compares with the prime less one, from the most significant byte down, and stops
at the first byte that decides.  Here the copies are the source's loops;
`patternTest_eq` and `isCanonicalFieldElement_eq` say that each is the check the
model uses elsewhere, and `canonical_copies_agree` that the four are one test: of
the value, against the prime.
-/
import Tacenta.Curve

set_option autoImplicit false

namespace Tacenta

namespace Curve

/-! ## The loops -/

/-- The byte at an index; both loops stay inside. -/
def byteAt (k : Arr 32) (i : Nat) : UInt8 := k.toList.getD i 0

/-- The loop over the bytes between the first and the last, with `left` turns to
go; it has no early exit. -/
def middleLoop (k : Arr 32) (i : Nat) (middleAllFf : Bool) : Nat → Bool
  | 0 => middleAllFf
  | left + 1 =>
      middleLoop k (i + 1) (if byteAt k i ≠ 0xff then false else middleAllFf) left

/-- `is_canonical_x25519`, as three crates have it. -/
def patternTest (k : Arr 32) : Bool :=
  if byteAt k 31 ≥ 0x80 then false
  else
    let middleAllFf := middleLoop k 1 true 30
    !(byteAt k 31 == 0x7f && middleAllFf && decide (byteAt k 0 ≥ 0xed))

/-- Byte `i` of `p - 1`, as the loop has it. -/
def pMinusOneByte (i : Nat) : UInt8 := if i = 31 then 0x7f else if i = 0 then 0xec else 0xff

/-- One turn of the boundary crate's loop: a byte that differs decides. -/
def compareByte (byte bound : UInt8) (rest : Bool) : Bool :=
  if byte < bound then true else if byte > bound then false else rest

/-- The boundary crate's loop, from byte `i` down. -/
def compareDown (u : Arr 32) : Nat → Bool
  | 0 => compareByte (byteAt u 0) (pMinusOneByte 0) true
  | i + 1 => compareByte (byteAt u (i + 1)) (pMinusOneByte (i + 1)) (compareDown u i)

end Curve

namespace Ratchet

/-- The ratchet crate's copy. -/
def isCanonicalX25519 (k : Arr 32) : Bool := Curve.patternTest k

end Ratchet

namespace Handshake

/-- The session crate's copy. -/
def isCanonicalX25519 (k : Arr 32) : Bool := Curve.patternTest k

end Handshake

namespace Wire

/-- The wire crate's copy. -/
def isCanonicalX25519 (k : Arr 32) : Bool := Curve.patternTest k

end Wire

namespace Xeddsa

/-- The boundary crate's check. -/
def isCanonicalFieldElement (u : Arr 32) : Bool :=
  if Curve.byteAt u 31 &&& 0x80 ≠ 0 then false else Curve.compareDown u 31

end Xeddsa

namespace Curve

theorem byteAt_eq (k : Arr 32) {i : Nat} (inside : i < 32) : byteAt k i = k[i] := by
  have long : i < k.toList.length := by rwa [Arr.length_toList]
  rw [byteAt, List.getD_eq_getElem _ _ long, Vector.getElem_toList]

/-! ## The pattern test -/

theorem middleLoop_eq (k : Arr 32) (i : Nat) (sofar : Bool) (left : Nat) :
    middleLoop k i sofar left =
      (sofar && (List.range left).all fun j => byteAt k (i + j) == 0xff) := by
  induction left generalizing i sofar with
  | zero => simp [middleLoop]
  | succ left ih =>
      have shift : ∀ j, i + 1 + j = i + (j + 1) := by omega
      rw [middleLoop, ih, List.range_succ_eq_map, List.all_cons, List.all_map]
      simp only [shift, Function.comp_def, Nat.add_zero, Nat.succ_eq_add_one]
      generalize byteAt k i = byte
      by_cases full : byte = 0xff
      · simp [full]
      · simp [full]

/-- The loop looks at the thirty bytes in the middle. -/
theorem patternTest_eq (k : Arr 32) : patternTest k = isCanonicalX25519 k := by
  have middle_ : middleLoop k 1 true 30 =
      (List.finRange 30).all fun i => k[i.val + 1] == 0xff := by
    rw [middleLoop_eq, Bool.true_and, Bool.eq_iff_iff, List.all_eq_true, List.all_eq_true]
    have here : ∀ i : Fin 30, byteAt k (1 + i.val) = k[i.val + 1] := by
      intro i
      rw [byteAt_eq k (by omega)]
      simp only [Nat.add_comm 1 i.val]
    constructor
    · intro all i _
      have := all i.val (List.mem_range.2 i.isLt)
      rwa [here i] at this
    · intro all j below
      rw [List.mem_range] at below
      have := all ⟨j, below⟩ (List.mem_finRange _)
      rwa [← here ⟨j, below⟩] at this
  rw [patternTest, isCanonicalX25519, middle_, byteAt_eq k (by omega), byteAt_eq k (by omega)]

/-! ## The comparison -/

/-- A comparison byte by byte, most significant first, is one of the numbers. -/
theorem atMost_iff (l : List (UInt8 × UInt8)) :
    atMost l = true ↔ ofBe (l.map Prod.fst) ≤ ofBe (l.map Prod.snd) := by
  induction l with
  | nil => simp [atMost]
  | cons pair rest ih =>
      obtain ⟨byte, bound⟩ := pair
      have value := ofBe_lt (rest.map Prod.fst)
      have limit := ofBe_lt (rest.map Prod.snd)
      rw [List.length_map] at value limit
      simp only [atMost, List.map_cons, ofBe_cons, List.length_map]
      generalize ofBe (rest.map Prod.fst) = v at value ih ⊢
      generalize ofBe (rest.map Prod.snd) = w at limit ih ⊢
      generalize 256 ^ rest.length = place at value limit ⊢
      split
      · rename_i less
        have step := Nat.mul_le_mul_right place (Nat.succ_le_of_lt (UInt8.lt_iff_toNat_lt.1 less))
        rw [Nat.succ_mul] at step
        simp only [true_iff]
        omega
      · rename_i notLess
        split
        · rename_i more
          have step := Nat.mul_le_mul_right place (Nat.succ_le_of_lt (UInt8.lt_iff_toNat_lt.1 more))
          rw [Nat.succ_mul] at step
          simp only [Bool.false_eq_true, false_iff, not_le]
          omega
        · rename_i notMore
          have same : byte = bound := UInt8.le_antisymm (UInt8.not_lt.1 notMore) (UInt8.not_lt.1 notLess)
          rw [ih, same]
          omega

theorem atMost_cons (byte bound : UInt8) (rest : List (UInt8 × UInt8)) :
    atMost ((byte, bound) :: rest) = compareByte byte bound (atMost rest) := rfl

/-- The loop compares the bytes it has left with those of the bound. -/
theorem compareDown_eq (u : Arr 32) {i : Nat} (inside : i < 32) :
    compareDown u i = atMost ((u.toList.zip pMinusOne).take (i + 1)).reverse := by
  have bound : ∀ j < 32, pMinusOne.getD j 0 = pMinusOneByte j := by decide
  have next : ∀ j < 32, ((u.toList.zip pMinusOne).take (j + 1)).reverse =
      (byteAt u j, pMinusOne.getD j 0) :: ((u.toList.zip pMinusOne).take j).reverse := by
    intro j below
    have long : j < u.toList.length := by rwa [Arr.length_toList]
    have long' : j < pMinusOne.length := below
    rw [List.take_add_one, List.getElem?_eq_getElem (by rw [List.length_zip]; omega),
      List.getElem_zip, List.reverse_append, byteAt, List.getD_eq_getElem _ _ long,
      List.getD_eq_getElem _ _ long']
    rfl
  induction i with
  | zero =>
      rw [next 0 inside, bound 0 inside, compareDown, atMost_cons]
      rfl
  | succ i ih =>
      rw [next (i + 1) inside, bound (i + 1) inside, compareDown, atMost_cons, ih (by omega)]

theorem compareDown_all (u : Arr 32) :
    compareDown u 31 = atMost (u.toList.zip pMinusOne).reverse := by
  have whole : (u.toList.zip pMinusOne).take 32 = u.toList.zip pMinusOne := by
    apply List.take_of_length_le
    rw [List.length_zip, Arr.length_toList]
    exact Nat.min_le_left _ _
  rw [compareDown_eq u (by omega), whole]

/-- The loop is the comparison the primitives are modelled with. -/
theorem isCanonicalFieldElement_eq (u : Arr 32) :
    Xeddsa.isCanonicalFieldElement u = isCanonicalFieldElement u := by
  rw [Xeddsa.isCanonicalFieldElement, isCanonicalFieldElement, compareDown_all,
    byteAt_eq u (by omega)]

theorem compareDown_iff (u : Arr 32) : compareDown u 31 = true ↔ littleEndian u < prime := by
  have same : u.toList.length = pMinusOne.length := Arr.length_toList u
  have limit : ofBe pMinusOne.reverse = prime - 1 := by decide +kernel
  have positive : 0 < prime := by norm_num [prime]
  rw [compareDown_all, atMost_iff, List.map_reverse, List.map_reverse, List.map_fst_zip same.le,
    List.map_snd_zip same.ge, limit, littleEndian]
  omega

theorem topBit_iff (b : UInt8) : b &&& 0x80 ≠ 0 ↔ 128 ≤ b.toNat := by
  have each : ∀ n < 256, (n &&& 128 ≠ 0 ↔ 128 ≤ n) := by decide +kernel
  rw [← each b.toNat b.toNat_lt, Ne, Ne, ← UInt8.toNat_inj, UInt8.toNat_and]
  rfl

/-- **The boundary crate's check is the comparison with the prime.** -/
theorem isCanonicalFieldElement_iff_lt (u : Arr 32) :
    Xeddsa.isCanonicalFieldElement u = true ↔ littleEndian u < prime := by
  rw [Xeddsa.isCanonicalFieldElement, byteAt_eq u (by omega)]
  by_cases top : u[31] &&& 0x80 ≠ 0
  · have large : 128 ≤ u[31].toNat := (topBit_iff _).1 top
    have spelled : littleEndian u =
        u[0].toNat + 256 * ofBe (middle u).reverse + 256 ^ 31 * u[31].toNat := littleEndian_eq u
    rw [if_pos top, spelled, prime]
    simp only [Bool.false_eq_true, false_iff]
    omega
  · rw [if_neg top]
    exact compareDown_iff u

/-! ## One spelling -/

/-- Each coordinate has one spelling the check accepts. -/
theorem one_spelling {v : Nat} (below : v < prime) :
    ∃! k : Arr 32, littleEndian k < prime ∧ uCoordinate k = v := by
  have room : v < 256 ^ 32 := below.trans (by norm_num [prime])
  have short : v < 2 ^ 255 := below.trans (by norm_num [prime])
  have coordinate : ∀ k : Arr 32, littleEndian k < prime → uCoordinate k = littleEndian k := by
    intro k small
    have under : littleEndian k < 2 ^ 255 := small.trans (by norm_num [prime])
    rw [uCoordinate, Nat.mod_eq_of_lt under, Nat.mod_eq_of_lt small]
  have length : (encodeU v).length = 32 := by rw [encodeU, List.length_reverse, length_beBytes]
  obtain ⟨k, spells⟩ : ∃ k : Arr 32, k.toList = encodeU v := by
    generalize encodeU v = bytes at length
    exact ⟨⟨bytes.toArray, by simpa using length⟩, by simp⟩
  have value : littleEndian k = v := by
    rw [littleEndian, spells, encodeU, List.reverse_reverse, ofBe_beBytes, Nat.mod_eq_of_lt room]
  have small : littleEndian k < prime := by rwa [value]
  refine ⟨k, ⟨small, (coordinate k small).trans value⟩, ?_⟩
  · rintro k' ⟨small, names⟩
    rw [coordinate k' small] at names
    apply Vector.toList_inj.1
    rw [← encodeU_littleEndian k', ← encodeU_littleEndian k, names, value]

/-- **The four copies are one check**: of every 32 bytes they answer the same,
and yes exactly when the value is below `2^255 - 19`, so each value below it has
exactly one spelling they accept. -/
theorem canonical_copies_agree :
    (∀ k : Arr 32,
      Ratchet.isCanonicalX25519 k = Handshake.isCanonicalX25519 k ∧
      Handshake.isCanonicalX25519 k = Wire.isCanonicalX25519 k ∧
      Wire.isCanonicalX25519 k = Xeddsa.isCanonicalFieldElement k ∧
      (Xeddsa.isCanonicalFieldElement k = true ↔ littleEndian k < 2 ^ 255 - 19)) ∧
    ∀ v < 2 ^ 255 - 19, ∃! k : Arr 32,
      Xeddsa.isCanonicalFieldElement k = true ∧ uCoordinate k = v := by
  constructor
  · intro k
    refine ⟨rfl, rfl, ?_, isCanonicalFieldElement_iff_lt k⟩
    rw [Bool.eq_iff_iff, isCanonicalFieldElement_iff_lt, ← isCanonicalX25519_iff_lt,
      ← patternTest_eq]
    rfl
  · intro v below
    simp only [isCanonicalFieldElement_iff_lt]
    exact one_spelling below

end Curve

end Tacenta
