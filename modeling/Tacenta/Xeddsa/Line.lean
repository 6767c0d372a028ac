/-
# Tacenta.Xeddsa.Line -- signatures that verify, over a group where everything holds

What `Tacenta.Xeddsa` asks of the dalek crates holds of some group with some
encoding: here the integers modulo the order of the base point, a point encoded
as the smaller of it and its negative, under a sign bit that says which.
-/
import Tacenta.Xeddsa

set_option autoImplicit false

namespace Tacenta.Xeddsa

/-! ## The encoding -/

/-- Half the order, rounded down. -/
def half : Nat := order / 2

theorem half_small : half < 2 ^ 252 := by decide

theorem order_eq : order = 2 * half + 1 := by decide

/-- A point's distance from zero, and its side. -/
def distance (p : Scalar) : Nat := if p.val ≤ half then p.val else order - p.val

def side (p : Scalar) : Bool := decide (half < p.val)

/-- The point at a distance, on a side. -/
def pointAt (n : Nat) (side : Bool) : Scalar := if side then -(n : Scalar) else (n : Scalar)

theorem pointAt_distance (p : Scalar) : pointAt (distance p) (side p) = p := by
  have below := ZMod.val_lt p
  unfold pointAt distance side
  by_cases low : p.val ≤ half
  · rw [if_neg (by simpa using low), if_pos low, ZMod.natCast_zmod_val]
  · rw [if_pos (by simpa using low), if_neg low, Nat.cast_sub below.le, ZMod.natCast_self, zero_sub,
      neg_neg, ZMod.natCast_zmod_val]

theorem distance_le (p : Scalar) : distance p ≤ half := by
  have below := ZMod.val_lt p
  have odd := order_eq
  unfold distance
  split <;> omega

theorem distance_pointAt {n : Nat} (small : n ≤ half) (s : Bool) : distance (pointAt n s) = n := by
  have odd := order_eq
  have value : (n : Scalar).val = n := ZMod.val_natCast_of_lt (by omega)
  cases s with
  | false =>
      show distance (n : Scalar) = n
      rw [distance, value, if_pos small]
  | true =>
      show distance (-(n : Scalar)) = n
      rcases Nat.eq_zero_or_pos n with rfl | some_
      · rw [Nat.cast_zero, neg_zero, distance, ZMod.val_zero, if_pos (Nat.zero_le _)]
      · have nonzero : (n : Scalar) ≠ 0 := fun zero => by
          have := congrArg ZMod.val zero
          rw [value, ZMod.val_zero] at this
          omega
        rw [distance, ZMod.neg_val, if_neg nonzero, value, if_neg (by omega)]
        omega

theorem pointAt_not (n : Nat) (s : Bool) : pointAt n (!s) = -pointAt n s := by
  cases s <;> simp [pointAt]

theorem distance_neg (p : Scalar) : distance (-p) = distance p := by
  have back := distance_pointAt (distance_le p) (!side p)
  rwa [pointAt_not, pointAt_distance] at back

theorem side_neg {p : Scalar} (nonzero : p ≠ 0) : side (-p) = !side p := by
  have below := ZMod.val_lt p
  have odd := order_eq
  have positive : p.val ≠ 0 := fun zero => nonzero ((ZMod.val_eq_zero p).1 zero)
  rw [side, side, ZMod.neg_val, if_neg nonzero, ← decide_not, decide_eq_decide]
  omega

/-- A distance and a side as thirty-two bytes. -/
def encode (n : Nat) (side : Bool) : Arr 32 :=
  if side then setSign (littleBytes n) else littleBytes n

theorem littleBytes_littleEndian (k : Arr 32) : littleBytes (Curve.littleEndian k) = k := by
  apply Arr.toList_inj.1
  have spelled := beBytes_ofBe k.toList.reverse
  rw [List.length_reverse, Arr.length_toList] at spelled
  rw [toList_littleBytes, Curve.littleEndian, spelled, List.reverse_reverse]

theorem littleEndian_small {n : Nat} (small : n ≤ half) : Curve.littleEndian (littleBytes n) = n := by
  have bound := half_small
  rw [littleEndian_littleBytes, Nat.mod_eq_of_lt (by omega)]

/-- A small number leaves most of the last byte free. -/
theorem littleBytes_top {n : Nat} (small : n ≤ half) : ((littleBytes n).get 31).toNat < 0x7f := by
  have bound := half_small
  have spelled := Curve.littleEndian_eq (littleBytes n)
  rw [littleEndian_small small] at spelled
  omega

/-- What setting and clearing the top bit do to a byte, and to one that leaves it
free. -/
theorem top_bit (b : UInt8) : (b ||| 0x80) >>> 7 = 1 ∧
    (b.toNat < 0x7f → b >>> 7 = 0 ∧ (b ||| 0x80) &&& 0x7f = b ∧ b &&& 0x80 = 0) :=
  of_bytes (Q := fun b => (b ||| 0x80) >>> 7 = 1 ∧
    (b.toNat < 0x7f → b >>> 7 = 0 ∧ (b ||| 0x80) &&& 0x7f = b ∧ b &&& 0x80 = 0))
    (by decide +kernel) b

theorem signBit_encode {n : Nat} (small : n ≤ half) (s : Bool) :
    signBit (encode n s) = if s then 1 else 0 := by
  have top := littleBytes_top small
  cases s with
  | false =>
      exact ((top_bit _).2 top).1
  | true =>
      have byte : (encode n true).get 31 = (littleBytes n).get 31 ||| 0x80 :=
        (get_setIfInBounds _ 31 _ 31).trans (if_pos rfl)
      rw [signBit, byte]
      exact (top_bit _).1

theorem clearSign_encode {n : Nat} (small : n ≤ half) (s : Bool) :
    clearSign (encode n s) = littleBytes n := by
  have top := littleBytes_top small
  cases s with
  | false => exact clearSign_eq (signBit_encode small false)
  | true =>
      have byte : (encode n true).get 31 = (littleBytes n).get 31 ||| 0x80 :=
        (get_setIfInBounds _ 31 _ 31).trans (if_pos rfl)
      have restored : ((littleBytes n).get 31 ||| 0x80) &&& 0x7f = (littleBytes n).get 31 :=
        ((top_bit _).2 top).2.1
      rw [clearSign, byte, restored]
      apply Vector.ext
      intro j inside
      show (((littleBytes n).setIfInBounds 31 _).setIfInBounds 31 _)[j] = _
      rw [Vector.getElem_setIfInBounds, Vector.getElem_setIfInBounds]
      split
      · rename_i here
        subst here
        rfl
      · rfl

theorem canonical_of_top {k : Arr 32} (top : (k.get 31).toNat < 0x7f) :
    Curve.isCanonicalFieldElement k = true := by
  have free : k.get 31 &&& 0x80 = 0 := ((top_bit _).2 top).2.2
  have below : k.get 31 < 0x7f := UInt8.lt_iff_toNat_lt.2 top
  have zipped : (k.toList.zip Curve.pMinusOne).reverse = (k.get 31, 0x7f) ::
      ((k.get 0 :: Curve.middle k).zip (0xec :: List.replicate 30 0xff)).reverse := by
    have front : k.toList = (k.get 0 :: Curve.middle k) ++ [k.get 31] := Curve.toList_eq k
    have bound : Curve.pMinusOne = (0xec :: List.replicate 30 0xff) ++ [0x7f] := rfl
    rw [front, bound, List.zip_append (by simp [Curve.length_middle])]
    simp
  rw [Curve.isCanonicalFieldElement, zipped, Curve.atMost]
  show (if k.get 31 &&& 0x80 ≠ 0 then false else _) = true
  rw [free, if_neg (by decide), if_pos below]

/-! ## The group -/

/-- What the hash returns, whatever it is given. -/
def hashed : Arr 64 := Vector.replicate 64 1

def line : Edwards Scalar where
  base := 1
  compress p := encode (distance p) (side p)
  toMontgomery p := littleBytes (distance p)
  toEdwards k b :=
    let n := Curve.littleEndian k
    if 0 < n ∧ n ≤ half then some (pointAt n (b != 0)) else none
  isTorsionFree _ := true
  keyFromBytes bytes :=
    some ⟨bytes, pointAt (Curve.littleEndian (clearSign bytes)) (signBit bytes != 0)⟩
  verifyStrict key _ signature :=
    let s := Edwards.signatureS signature
    let r := (s : Scalar) - Scalar.fromBytesModOrderWide hashed * key.point
    decide ((encode (distance r) (side r)).toList = Edwards.signatureR signature ∧ s < order ∧
      8 • r ≠ 0 ∧ 8 • key.point ≠ 0)
  sha512 _ := hashed

theorem distance_ne {p : Scalar} (nonzero : p ≠ 0) : 0 < distance p := by
  rcases Nat.eq_zero_or_pos (distance p) with zero | some_
  · have back := pointAt_distance p
    rw [zero] at back
    refine absurd back.symm ?_
    unfold pointAt
    split <;> simpa using nonzero
  · exact some_

theorem line_compress_neg {p : Scalar} (nonzero : p ≠ 0) :
    signBit (encode (distance (-p)) (side (-p))) ≠ signBit (encode (distance p) (side p)) ∧
      clearSign (encode (distance (-p)) (side (-p))) = clearSign (encode (distance p) (side p)) := by
  have small := distance_le p
  rw [distance_neg, side_neg nonzero, signBit_encode small, signBit_encode small,
    clearSign_encode small, clearSign_encode small]
  refine ⟨?_, rfl⟩
  cases side p <;> decide

theorem line_fiber {p q : Scalar} (same : littleBytes (distance p) = littleBytes (distance q)) :
    p = q ∨ p = -q := by
  have numbers := congrArg Curve.littleEndian same
  rw [littleEndian_small (distance_le p), littleEndian_small (distance_le q)] at numbers
  have here := pointAt_distance p
  have there := pointAt_distance q
  rw [numbers] at here
  by_cases sides : side p = side q
  · rw [sides] at here
    exact .inl (here.symm.trans there)
  · rw [Bool.eq_not.2 sides, pointAt_not, there] at here
    exact .inr here.symm

/-- A side read back from the sign bit it was written to. -/
theorem side_bit {n : Nat} (small : n ≤ half) (s : Bool) : (signBit (encode n s) != 0) = s := by
  rw [signBit_encode small]
  cases s <;> rfl

theorem line_toEdwards (k : Arr 32) (b : UInt8) : line.toEdwards k b =
    if 0 < Curve.littleEndian k ∧ Curve.littleEndian k ≤ half then
      some (pointAt (Curve.littleEndian k) (b != 0)) else none := rfl

theorem line_toEdwards_montgomery {p : Scalar} (nonzero : p ≠ 0) :
    line.toEdwards (littleBytes (distance p)) (signBit (encode (distance p) (side p))) = some p := by
  have small := distance_le p
  rw [line_toEdwards, littleEndian_small small, if_pos ⟨distance_ne nonzero, small⟩, side_bit small,
    pointAt_distance]

theorem line_toEdwards_some {k : Arr 32} {b : UInt8} {p : Scalar} (here : line.toEdwards k b = some p) :
    p ≠ 0 ∧ littleBytes (distance p) = k := by
  rw [line_toEdwards] at here
  split at here
  · rename_i inside
    have far := distance_pointAt inside.2 (b != 0)
    rw [Option.some.inj here] at far
    refine ⟨?_, ?_⟩
    · rintro rfl
      have zero : distance 0 = 0 := by
        rw [distance, ZMod.val_zero, if_pos (Nat.zero_le _)]
      omega
    · rw [far, littleBytes_littleEndian]
  · cases here

theorem line_keyFromBytes (p : Scalar) : line.keyFromBytes (encode (distance p) (side p)) =
    some ⟨encode (distance p) (side p), p⟩ := by
  have small := distance_le p
  have read : line.keyFromBytes (encode (distance p) (side p)) = some ⟨encode (distance p) (side p),
      pointAt (Curve.littleEndian (clearSign (encode (distance p) (side p))))
        (signBit (encode (distance p) (side p)) != 0)⟩ := rfl
  rw [read, clearSign_encode small, littleEndian_small small, side_bit small, pointAt_distance]

theorem line_strict (key : VerifyingKey Scalar) (message : Bytes) (signature : Arr 64) :
    line.verifyStrict key message signature = true ↔ line.Strict key message signature := by
  have equation : ∀ r : Scalar, Edwards.signatureS signature • line.base =
      r + (Scalar.fromBytesModOrderWide hashed).val • key.point ↔
      r = (Edwards.signatureS signature : Scalar) -
        Scalar.fromBytesModOrderWide hashed * key.point := by
    intro r
    have one : line.base = 1 := rfl
    rw [one, nsmul_eq_mul, nsmul_eq_mul, ZMod.natCast_zmod_val, mul_one, eq_sub_iff_add_eq, eq_comm]
  constructor
  · intro accepted
    obtain ⟨encoded, canonical, large, large_key⟩ := of_decide_eq_true accepted
    exact ⟨_, encoded, canonical, large, large_key, (equation _).2 rfl⟩
  · rintro ⟨r, encoded, canonical, large, large_key, holds⟩
    have same := (equation r).1 holds
    subst same
    exact decide_eq_true ⟨encoded, canonical, large, large_key⟩

theorem line_lawful : line.Lawful where
  base_order := ZMod.addOrderOf_one order
  compress_neg p double := line_compress_neg fun zero => double (by rw [zero, smul_zero])
  montgomery_neg p := congrArg littleBytes (distance_neg p)
  montgomery_canonical p := canonical_of_top (littleBytes_top (distance_le p))
  montgomery_fiber _ _ _ same := line_fiber same
  toEdwards_montgomery p double := line_toEdwards_montgomery fun zero => double (by rw [zero, smul_zero])
  toEdwards_some _ _ _ _ here := line_toEdwards_some here
  torsionFree_iff p := by
    refine ⟨fun _ => ?_, fun _ => rfl⟩
    rw [nsmul_eq_mul, ZMod.natCast_self, zero_mul]
  keyFromBytes_compress := line_keyFromBytes
  verifyStrict_iff := line_strict

/-! ## Signing and verifying -/

/-- **XEdDSA signatures verify for every key.**  Over any group with what the
dalek crates document: a signature whose nonce is not zero verifies under its
signer's key, its top bit is clear, and for any key and any signature the
verifier decides by strict verification, without the spare bit, under the point
of the key whose sign is that bit. -/
theorem xeddsa_verifies {P : Type} [AddCommGroup P] (e : Edwards P) (lawful : e.Lawful) :
    (∀ secret message z, nonce e secret message z ≠ 0 →
      verify e (e.publicKey secret) message (sign e secret message z) = true) ∧
    (∀ secret message z, (sign e secret message z).get 63 >>> 7 = 0) ∧
    ∀ key message signature, verify e key message signature = true ↔
      e.isPrimeOrderPublic key = true ∧
        ∃ p, e.toMontgomery p = key ∧ signBit (e.compress p) = signature.get 63 >>> 7 ∧
          e.verifyStrict ⟨e.compress p, p⟩ message (clearSpare signature) = true :=
  ⟨verify_sign lawful, sign_top e, verify_iff lawful⟩

/-- The sign of the point `calculate_key_pair` starts from. -/
def startSign (secret : Arr 32) : UInt8 :=
  signBit (line.compress ((Scalar.fromBytesModOrder (clampInteger secret)).val • line.base))

theorem startSign_eq (secret : Arr 32) :
    startSign secret = signBit (line.compress (Scalar.fromBytesModOrder (clampInteger secret))) := by
  have one : line.base = 1 := rfl
  rw [startSign, one, nsmul_eq_mul, ZMod.natCast_zmod_val, mul_one]

/-- Two secrets whose points lie on either side: the first is negated, the second
is not. -/
theorem xeddsa_verifies_line :
    (startSign (Vector.replicate 32 0) = 1 ∧
      verify line (line.publicKey (Vector.replicate 32 0)) [7]
        (sign line (Vector.replicate 32 0) [7] (Vector.replicate 64 3)) = true) ∧
    startSign (Vector.replicate 32 1) = 0 ∧
      verify line (line.publicKey (Vector.replicate 32 1)) [7]
        (sign line (Vector.replicate 32 1) [7] (Vector.replicate 64 3)) = true := by
  have fresh : ∀ secret : Arr 32, nonce line secret [7] (Vector.replicate 64 3) ≠ 0 := by
    intro secret
    show Scalar.fromBytesModOrderWide hashed ≠ 0
    rw [Scalar.fromBytesModOrderWide, Ne, ZMod.natCast_eq_zero_iff]
    decide +kernel
  rw [startSign_eq, startSign_eq]
  exact ⟨⟨by decide +kernel, (xeddsa_verifies line line_lawful).1 _ _ _ (fresh _)⟩,
    by decide +kernel, (xeddsa_verifies line line_lawful).1 _ _ _ (fresh _)⟩

end Tacenta.Xeddsa
