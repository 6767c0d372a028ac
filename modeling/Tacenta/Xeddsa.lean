/-
# Tacenta.Xeddsa -- signatures made with an X25519 key

`boundary/src/xeddsa.rs`, over what it takes of the dalek crates: the group of
edwards25519, its compressed encoding, the Montgomery map that forgets the sign
of a point and its partial inverse, and Ed25519's strict verification.

A Montgomery coordinate names a point up to sign, so signer and verifier have to
agree on one.  The signer takes the point of sign zero and negates its scalar
when that is not the one its scalar gives (`calculateKeyPair_eq`); the verifier
takes the sign from the signature's spare bit.  `verify_sign` is that the two
meet for every key, `verify_iff` what the verifier decides for any key and any
signature.
-/
import Tacenta.Curve

set_option autoImplicit false

namespace Tacenta

namespace Xeddsa

/-! ## Scalars -/

/-- The order of the base point, `2^252 + 27742317777372353535851937790883648493`. -/
def order : Nat := 2 ^ 252 + 27742317777372353535851937790883648493

instance : NeZero order := ⟨by decide⟩

/-- `Scalar`. -/
abbrev Scalar := ZMod order

/-- Thirty-two bytes, least significant first. -/
def littleBytes (n : Nat) : Arr 32 := ⟨(beBytes 32 n).reverse.toArray, by simp⟩

/-- `clamp_integer`. -/
def clampInteger (bytes : Arr 32) : Arr 32 :=
  (bytes.setIfInBounds 0 (bytes.get 0 &&& 0xf8)).setIfInBounds 31 ((bytes.get 31 &&& 0x7f) ||| 0x40)

namespace Scalar

def fromBytesModOrder (bytes : Arr 32) : Scalar := (Curve.littleEndian bytes : Nat)

def fromBytesModOrderWide (bytes : Arr 64) : Scalar := (ofBe bytes.toList.reverse : Nat)

def toBytes (s : Scalar) : Arr 32 := littleBytes s.val

end Scalar

/-! ## What dalek provides -/

/-- The sign bit of a compressed point, and the bytes without it and with it. -/
def signBit (bytes : Arr 32) : UInt8 := bytes.get 31 >>> 7

def clearSign (bytes : Arr 32) : Arr 32 := bytes.setIfInBounds 31 (bytes.get 31 &&& 0x7f)

def setSign (bytes : Arr 32) : Arr 32 := bytes.setIfInBounds 31 (bytes.get 31 ||| 0x80)

/-- `ed25519_dalek::VerifyingKey`: a point, and the bytes it came from. -/
structure VerifyingKey (P : Type) where
  compressed : Arr 32
  point : P

end Xeddsa

open Xeddsa (Scalar order VerifyingKey)

/-- The functions of the dalek crates and of SHA-512 that `xeddsa.rs` calls,
over the type of curve points. -/
structure Edwards (P : Type) where
  base : P
  /-- `EdwardsPoint::compress`. -/
  compress : P → Arr 32
  /-- `EdwardsPoint::to_montgomery`. -/
  toMontgomery : P → Arr 32
  /-- `MontgomeryPoint::to_edwards`. -/
  toEdwards : Arr 32 → UInt8 → Option P
  isTorsionFree : P → Bool
  /-- `VerifyingKey::from_bytes`. -/
  keyFromBytes : Arr 32 → Option (VerifyingKey P)
  /-- `VerifyingKey::verify_strict`. -/
  verifyStrict : VerifyingKey P → Bytes → Arr 64 → Bool
  sha512 : Bytes → Arr 64

namespace Edwards

open Xeddsa

variable {K P : Type} [AddCommGroup P] (e : Edwards P)

/-- The two halves of a signature. -/
def signatureR (signature : Arr 64) : Bytes := signature.toList.take 32
def signatureS (signature : Arr 64) : Nat := ofBe (signature.toList.drop 32).reverse

/-- Ed25519's challenge. -/
def challenge (r publicKey message : Bytes) : Scalar :=
  Scalar.fromBytesModOrderWide (e.sha512 (r ++ publicKey ++ message))

/-- What strict verification asks: a canonical scalar, points of more than small
order, and the equation. -/
def Strict (key : VerifyingKey P) (message : Bytes) (signature : Arr 64) : Prop :=
  ∃ r : P, (e.compress r).toList = signatureR signature ∧ signatureS signature < order ∧
    8 • r ≠ 0 ∧ 8 • key.point ≠ 0 ∧
    signatureS signature • e.base =
      r + (e.challenge (signatureR signature) key.compressed.toList message).val • key.point

/-- **What the dalek crates document** of these functions. -/
structure Lawful : Prop where
  base_order : addOrderOf e.base = order
  /-- Negation flips the sign bit and nothing else. -/
  compress_neg : ∀ p, 2 • p ≠ 0 → signBit (e.compress (-p)) ≠ signBit (e.compress p) ∧
    clearSign (e.compress (-p)) = clearSign (e.compress p)
  montgomery_neg : ∀ p, e.toMontgomery (-p) = e.toMontgomery p
  montgomery_canonical : ∀ p, Curve.isCanonicalFieldElement (e.toMontgomery p) = true
  /-- The map forgets the sign only. -/
  montgomery_fiber : ∀ p q, 2 • q ≠ 0 → e.toMontgomery p = e.toMontgomery q → p = q ∨ p = -q
  toEdwards_montgomery : ∀ p, 2 • p ≠ 0 →
    e.toEdwards (e.toMontgomery p) (signBit (e.compress p)) = some p
  toEdwards_some : ∀ k b p, Curve.isCanonicalFieldElement k = true → e.toEdwards k b = some p →
    p ≠ 0 ∧ e.toMontgomery p = k
  torsionFree_iff : ∀ p, e.isTorsionFree p = true ↔ order • p = 0
  keyFromBytes_compress : ∀ p, e.keyFromBytes (e.compress p) = some ⟨e.compress p, p⟩
  verifyStrict_iff : ∀ key message signature,
    e.verifyStrict key message signature = true ↔ e.Strict key message signature

/-- `PublicKey::from(&StaticSecret)`: the coordinate of the clamped secret's point. -/
def publicKey (secret : Arr 32) : Arr 32 :=
  e.toMontgomery (Curve.littleEndian (clampInteger secret) • e.base)

/-- `dh::is_prime_order_public`. -/
def isPrimeOrderPublic (key : Arr 32) : Bool :=
  if !Curve.isCanonicalFieldElement key then false
  else
    match e.toEdwards key 0 with
    | some point => e.isTorsionFree point
    | none => false

end Edwards

/-! ## Signing and verifying -/

namespace Xeddsa

variable {K P : Type} [AddCommGroup P] (e : Edwards P)

/-- `HASH_1_PREFIX`. -/
def hash1Prefix : Bytes := 0xfe :: List.replicate 31 0xff

/-- The public key with its sign bit forced to zero, and the scalar it is a
multiple by. -/
def calculateKeyPair (secret : Arr 32) : Arr 32 × Scalar :=
  let a := Scalar.fromBytesModOrder (clampInteger secret)
  let publicKey := e.compress (a.val • e.base)
  let sign := signBit publicKey
  (clearSign publicKey, if sign = 1 then -a else a)

/-- `r`, from the 64 random bytes `z`. -/
def nonce (secret : Arr 32) (message : Bytes) (z : Arr 64) : Scalar :=
  let (_, a) := calculateKeyPair e secret
  Scalar.fromBytesModOrderWide
    (e.sha512 (hash1Prefix ++ (Scalar.toBytes a).toList ++ message ++ z.toList))

def sign (secret : Arr 32) (message : Bytes) (z : Arr 64) : Arr 64 :=
  let (publicKey, a) := calculateKeyPair e secret
  let r := nonce e secret message z
  let bigR := e.compress (r.val • e.base)
  let h := e.challenge bigR.toList publicKey.toList message
  let s := r + h * a
  bigR ++ Scalar.toBytes s

/-- The Edwards public key a signature is checked under. -/
def verifyingKey (publicKey : Arr 32) (signature : Arr 64) : Option (Arr 32) :=
  let sign := signature.get 63 >>> 7
  if !e.isPrimeOrderPublic publicKey then none
  else (e.toEdwards publicKey sign).map e.compress

/-- The signature without its spare bit. -/
def clearSpare (signature : Arr 64) : Arr 64 :=
  signature.setIfInBounds 63 (signature.get 63 &&& 0x7f)

def verify (publicKey : Arr 32) (message : Bytes) (signature : Arr 64) : Bool :=
  match verifyingKey e publicKey signature with
  | none => false
  | some edwards =>
      match e.keyFromBytes edwards with
      | none => false
      | some key => e.verifyStrict key message (clearSpare signature)

end Xeddsa

/-! ## Scalars and bytes -/

namespace Xeddsa

theorem toList_littleBytes (n : Nat) : (littleBytes n).toList = (beBytes 32 n).reverse := by
  simp [littleBytes, Vector.toList]

theorem littleEndian_littleBytes (n : Nat) : Curve.littleEndian (littleBytes n) = n % 256 ^ 32 := by
  rw [Curve.littleEndian, toList_littleBytes, List.reverse_reverse, ofBe_beBytes]

theorem order_small : order < 2 ^ 253 := by decide

theorem order_wide : 2 ^ 255 < 8 * order := by decide

theorem order_coprime : Nat.Coprime 8 order := by decide

theorem get_setIfInBounds {n : Nat} (a : Arr n) (j : Nat) (x : UInt8) (i : Fin n) :
    (a.setIfInBounds j x).get i = if j = i.val then x else a.get i := by
  rw [Vector.get_eq_getElem, Vector.get_eq_getElem, Vector.getElem_setIfInBounds]

/-- A fact about all bytes, checked byte by byte. -/
theorem of_bytes {Q : UInt8 → Prop} (each : ∀ n < 256, Q (UInt8.ofNat n)) (b : UInt8) : Q b := by
  have here := each b.toNat b.toNat_lt
  rwa [UInt8.ofNat_toNat] at here

/-- **A clamped secret is no multiple of the order.** -/
theorem clamped_ne (secret : Arr 32) : ¬ order ∣ Curve.littleEndian (clampInteger secret) := by
  have low : ((clampInteger secret).get 0).toNat % 8 = 0 := by
    have byte : (clampInteger secret).get 0 = secret.get 0 &&& 0xf8 :=
      ((get_setIfInBounds _ 31 _ 0).trans (if_neg (by decide))).trans
        ((get_setIfInBounds _ 0 _ 0).trans (if_pos rfl))
    rw [byte]
    exact of_bytes (Q := fun b => (b &&& 0xf8).toNat % 8 = 0) (by decide +kernel) (secret.get 0)
  have top : 64 ≤ ((clampInteger secret).get 31).toNat ∧ ((clampInteger secret).get 31).toNat < 128 := by
    have byte : (clampInteger secret).get 31 = (secret.get 31 &&& 0x7f) ||| 0x40 :=
      (get_setIfInBounds _ 31 _ 31).trans (if_pos rfl)
    rw [byte]
    exact of_bytes (Q := fun b => 64 ≤ ((b &&& 0x7f) ||| 0x40).toNat ∧
      ((b &&& 0x7f) ||| 0x40).toNat < 128) (by decide +kernel) (secret.get 31)
  have middle := ofBe_lt (Curve.middle (clampInteger secret)).reverse
  rw [List.length_reverse, Curve.length_middle] at middle
  have first := ((clampInteger secret).get 0).toNat_lt
  have spelled := Curve.littleEndian_eq (clampInteger secret)
  have wide := order_wide
  intro divides
  have eight : 8 ∣ Curve.littleEndian (clampInteger secret) := by omega
  obtain ⟨n, whole⟩ := order_coprime.mul_dvd_of_dvd_of_dvd eight divides
  rcases Nat.eq_zero_or_pos n with none_ | some_
  · rw [none_, Nat.mul_zero] at whole
    omega
  · have least := Nat.le_mul_of_pos_right (8 * order) some_
    omega

/-! ## Points and signs -/

/-- A point that is its own negative, in the subgroup, is the identity. -/
theorem double_ne {P : Type} [AddCommGroup P] {p : P} (torsionFree : order • p = 0) (nonzero : p ≠ 0) : 2 • p ≠ 0 := by
  intro double
  have divides := Nat.dvd_gcd (addOrderOf_dvd_iff_nsmul_eq_zero.2 double)
    (addOrderOf_dvd_iff_nsmul_eq_zero.2 torsionFree)
  have one : Nat.gcd 2 order = 1 := by decide
  rw [one, Nat.dvd_one, AddMonoid.addOrderOf_eq_one_iff] at divides
  exact nonzero divides

theorem double_neg_ne {P : Type} [AddCommGroup P] {p : P} (double : 2 • p ≠ 0) : 2 • -p ≠ 0 := by
  rw [smul_neg, neg_ne_zero]
  exact double

theorem signBit_cases (bytes : Arr 32) : signBit bytes = 0 ∨ signBit bytes = 1 :=
  of_bytes (Q := fun b => b >>> 7 = 0 ∨ b >>> 7 = 1) (by decide +kernel) (bytes.get 31)

/-- Clearing a top bit that is clear changes nothing. -/
theorem clear_eq {n : Nat} {a : Arr n} {i : Fin n} (clear : a.get i >>> 7 = 0) :
    a.setIfInBounds i (a.get i &&& 0x7f) = a := by
  have byte : a.get i &&& 0x7f = a.get i :=
    of_bytes (Q := fun b => b >>> 7 = 0 → b &&& 0x7f = b) (by decide +kernel) (a.get i) clear
  rw [byte, Vector.get_eq_getElem]
  apply Vector.ext
  intro j inside
  rw [Vector.getElem_setIfInBounds]
  split
  · rename_i here
    subst here
    rfl
  · rfl

theorem clearSign_eq {bytes : Arr 32} (clear : signBit bytes = 0) : clearSign bytes = bytes := clear_eq clear

/-! ## The two halves of a signature -/

theorem get_append_last (r s : Arr 32) : (show Arr 64 from r ++ s).get 63 = s.get 31 := by
  rw [Vector.get_eq_getElem, Vector.get_eq_getElem]
  exact Vector.getElem_append_right (by decide) (by decide)

theorem signatureR_append (r s : Arr 32) : Edwards.signatureR (show Arr 64 from r ++ s) = r.toList := by
  show (r ++ s).toList.take 32 = r.toList
  rw [Vector.toList_append, List.take_left' (Arr.length_toList r)]

theorem signatureS_append (r s : Arr 32) :
    Edwards.signatureS (show Arr 64 from r ++ s) = Curve.littleEndian s := by
  show ofBe ((r ++ s).toList.drop 32).reverse = Curve.littleEndian s
  rw [Vector.toList_append, List.drop_left' (Arr.length_toList r), Curve.littleEndian]

theorem littleEndian_toBytes (s : Scalar) : Curve.littleEndian (Scalar.toBytes s) = s.val := by
  rw [Scalar.toBytes, littleEndian_littleBytes, Nat.mod_eq_of_lt]
  exact (ZMod.val_lt s).trans (by decide)

/-- A reduced scalar leaves the top bit free. -/
theorem toBytes_top (s : Scalar) : (Scalar.toBytes s).get 31 >>> 7 = 0 := by
  have spelled := Curve.littleEndian_eq (Scalar.toBytes s)
  have below := (ZMod.val_lt s).trans order_small
  rw [littleEndian_toBytes] at spelled
  have small : ((Scalar.toBytes s).get 31).toNat < 128 := by omega
  exact of_bytes (Q := fun b => b.toNat < 128 → b >>> 7 = 0) (by decide +kernel) _ small

/-! ## Multiples of the base point -/

section Lawful

variable {P : Type} [AddCommGroup P] {e : Edwards P} (lawful : e.Lawful)

include lawful

theorem multiple_congr {m n : Nat} (same : m ≡ n [MOD order]) : m • e.base = n • e.base := by
  rw [← lawful.base_order] at same
  exact nsmul_eq_nsmul_iff_modEq.2 same

theorem multiple_eq_zero_iff (n : Nat) : n • e.base = 0 ↔ order ∣ n := by
  rw [← lawful.base_order]
  exact addOrderOf_dvd_iff_nsmul_eq_zero.symm

/-- A small multiple of a multiple is zero only when that is. -/
theorem small_multiple {k n : Nat} (coprime : Nat.Coprime k order) (zero : k • n • e.base = 0) :
    order ∣ n := by
  rw [← mul_nsmul', multiple_eq_zero_iff lawful] at zero
  exact coprime.symm.dvd_of_dvd_mul_left zero

theorem neg_multiple (a : Scalar) : (-a).val • e.base = -(a.val • e.base) := by
  rw [eq_neg_iff_add_eq_zero, ← add_nsmul, multiple_eq_zero_iff lawful]
  have sum : ((((-a).val + a.val : Nat)) : Scalar) = 0 := by
    rw [Nat.cast_add, ZMod.natCast_zmod_val, ZMod.natCast_zmod_val, neg_add_cancel]
  exact (ZMod.natCast_eq_zero_iff _ _).1 sum

theorem response_multiple (r h a : Scalar) :
    (r + h * a).val • e.base = r.val • e.base + h.val • a.val • e.base := by
  rw [← mul_nsmul', ← add_nsmul]
  apply multiple_congr lawful
  rw [← ZMod.natCast_eq_natCast_iff, ZMod.natCast_zmod_val, Nat.cast_add, Nat.cast_mul,
    ZMod.natCast_zmod_val, ZMod.natCast_zmod_val, ZMod.natCast_zmod_val]

/-- One of a point and its negative has the sign asked for. -/
theorem toEdwards_sign {p : P} (double : 2 • p ≠ 0) {b : UInt8} (bit : b = 0 ∨ b = 1) :
    ∃ q, (q = p ∨ q = -p) ∧ signBit (e.compress q) = b ∧ 2 • q ≠ 0 ∧
      e.toMontgomery q = e.toMontgomery p ∧ e.toEdwards (e.toMontgomery p) b = some q := by
  by_cases same : signBit (e.compress p) = b
  · exact ⟨p, .inl rfl, same, double, rfl, same ▸ lawful.toEdwards_montgomery p double⟩
  · have other := (lawful.compress_neg p double).1
    have flipped : signBit (e.compress (-p)) = b := by
      have here := signBit_cases (e.compress p)
      have there := signBit_cases (e.compress (-p))
      generalize signBit (e.compress p) = x at *
      generalize signBit (e.compress (-p)) = y at *
      rcases bit with rfl | rfl <;> rcases here with rfl | rfl <;> rcases there with rfl | rfl <;>
        first | rfl | exact absurd rfl same | exact absurd rfl other
    have turned := lawful.toEdwards_montgomery (-p) (double_neg_ne double)
    rw [lawful.montgomery_neg, flipped] at turned
    exact ⟨-p, .inr rfl, flipped, double_neg_ne double, lawful.montgomery_neg p, turned⟩

/-! ## The signer's key pair -/

/-- **The signer's point**: the public key is its encoding, with sign zero, and
its coordinate is the X25519 public key; no small multiple of it vanishes. -/
theorem calculateKeyPair_eq (secret : Arr 32) :
    e.compress ((calculateKeyPair e secret).2.val • e.base) = (calculateKeyPair e secret).1 ∧
      signBit (calculateKeyPair e secret).1 = 0 ∧
      e.toMontgomery ((calculateKeyPair e secret).2.val • e.base) = e.publicKey secret ∧
      ¬ order ∣ (calculateKeyPair e secret).2.val := by
  have value : (Scalar.fromBytesModOrder (clampInteger secret)).val • e.base =
      Curve.littleEndian (clampInteger secret) • e.base := by
    apply multiple_congr lawful
    rw [Scalar.fromBytesModOrder, ZMod.val_natCast]
    exact Nat.mod_modEq _ _
  have nonzero : (Scalar.fromBytesModOrder (clampInteger secret)).val • e.base ≠ 0 := by
    rw [value, Ne, multiple_eq_zero_iff lawful]
    exact clamped_ne secret
  have torsionFree : order • (Scalar.fromBytesModOrder (clampInteger secret)).val • e.base = 0 := by
    rw [← mul_nsmul', multiple_eq_zero_iff lawful]
    exact dvd_mul_right _ _
  have double := double_ne torsionFree nonzero
  have coordinate : e.toMontgomery ((Scalar.fromBytesModOrder (clampInteger secret)).val • e.base) =
      e.publicKey secret := by rw [value, Edwards.publicKey]
  rw [calculateKeyPair]
  generalize Scalar.fromBytesModOrder (clampInteger secret) = a at *
  simp only
  by_cases one : signBit (e.compress (a.val • e.base)) = 1
  · obtain ⟨flips, same⟩ := lawful.compress_neg _ double
    have clear : signBit (e.compress (-(a.val • e.base))) = 0 := by
      rcases signBit_cases (e.compress (-(a.val • e.base))) with zero | other
      · exact zero
      · exact absurd (other.trans one.symm) flips
    have encoded : e.compress (-(a.val • e.base)) = clearSign (e.compress (a.val • e.base)) := by
      rw [← same, clearSign_eq clear]
    rw [if_pos one, neg_multiple lawful, ← encoded]
    refine ⟨rfl, clear, (lawful.montgomery_neg _).trans coordinate, ?_⟩
    rw [← multiple_eq_zero_iff lawful, neg_multiple lawful, neg_eq_zero]
    exact nonzero
  · have clear : signBit (e.compress (a.val • e.base)) = 0 :=
      (signBit_cases _).resolve_right one
    rw [if_neg one, clearSign_eq clear]
    exact ⟨rfl, clear, coordinate, fun divides => nonzero ((multiple_eq_zero_iff lawful _).2 divides)⟩

/-! ## What verification decides -/

omit lawful in
theorem sign_eq (secret : Arr 32) (message : Bytes) (z : Arr 64) :
    sign e secret message z = show Arr 64 from
      e.compress ((nonce e secret message z).val • e.base) ++ Scalar.toBytes
        (nonce e secret message z +
          e.challenge (e.compress ((nonce e secret message z).val • e.base)).toList
            (calculateKeyPair e secret).1.toList message * (calculateKeyPair e secret).2) := rfl

/-- A key that the identity-key rule accepts names two points, neither its own negative. -/
theorem isPrimeOrderPublic_point {key : Arr 32} (accepted : e.isPrimeOrderPublic key = true) :
    ∃ p, e.toMontgomery p = key ∧ 2 • p ≠ 0 := by
  unfold Edwards.isPrimeOrderPublic at accepted
  split at accepted
  · cases accepted
  · rename_i canonical
    split at accepted
    · rename_i p here
      obtain ⟨nonzero, coordinate⟩ := lawful.toEdwards_some key 0 p (by simpa using canonical) here
      exact ⟨p, coordinate, double_ne ((lawful.torsionFree_iff p).1 accepted) nonzero⟩
    · cases accepted

/-- **Verification is Ed25519's strict verification**, of the signature without
its spare bit, under the point of the key whose sign is that bit. -/
theorem verify_iff (key : Arr 32) (message : Bytes) (signature : Arr 64) :
    verify e key message signature = true ↔ e.isPrimeOrderPublic key = true ∧
      ∃ p, e.toMontgomery p = key ∧ signBit (e.compress p) = signature.get 63 >>> 7 ∧
        e.verifyStrict ⟨e.compress p, p⟩ message (clearSpare signature) = true := by
  unfold verify verifyingKey
  by_cases accepted : e.isPrimeOrderPublic key = true
  · obtain ⟨p, rfl, double⟩ := isPrimeOrderPublic_point lawful accepted
    obtain ⟨q, -, sign, double_q, coordinate, edwards⟩ := toEdwards_sign lawful double
      (of_bytes (Q := fun b => b >>> 7 = 0 ∨ b >>> 7 = 1) (by decide +kernel) (signature.get 63))
    simp only [accepted, Bool.not_true, Bool.false_eq_true, if_false, edwards, Option.map_some,
      lawful.keyFromBytes_compress, true_and]
    constructor
    · intro strict
      exact ⟨q, coordinate, sign, strict⟩
    · rintro ⟨p', there, sign', strict⟩
      have same : p' = q := by
        rcases lawful.montgomery_fiber p' q double_q (there.trans coordinate.symm) with here | here
        · exact here
        · exact absurd ((here ▸ sign').trans sign.symm) (lawful.compress_neg q double_q).1
      rwa [same] at strict
  · simp [accepted]

/-- **A signature verifies under its signer's key**, whatever the key. -/
theorem verify_sign (secret : Arr 32) (message : Bytes) (z : Arr 64)
    (fresh : nonce e secret message z ≠ 0) :
    verify e (e.publicKey secret) message (sign e secret message z) = true := by
  obtain ⟨encoded, clear, coordinate, whole⟩ := calculateKeyPair_eq lawful secret
  have double : 2 • (calculateKeyPair e secret).2.val • e.base ≠ 0 := fun zero =>
    whole (small_multiple lawful (by decide) zero)
  have torsionFree : order • (calculateKeyPair e secret).2.val • e.base = 0 := by
    rw [← mul_nsmul', multiple_eq_zero_iff lawful]
    exact dvd_mul_right _ _
  have accepted : e.isPrimeOrderPublic (e.publicKey secret) = true := by
    have edwards := lawful.toEdwards_montgomery _ double
    rw [encoded, clear, coordinate] at edwards
    have canonical := lawful.montgomery_canonical ((calculateKeyPair e secret).2.val • e.base)
    rw [coordinate] at canonical
    rw [Edwards.isPrimeOrderPublic, canonical, edwards]
    exact (lawful.torsionFree_iff _).2 torsionFree
  have signed := sign_eq (e := e) secret message z
  generalize sign e secret message z = signature at *
  have top : signature.get 63 >>> 7 = 0 := by
    rw [signed, get_append_last]
    exact toBytes_top _
  have spare : clearSpare signature = signature := clear_eq top
  refine (verify_iff lawful _ _ _).2 ⟨accepted, _, coordinate, ?_, ?_⟩
  · rw [encoded, clear, top]
  · rw [spare, lawful.verifyStrict_iff]
    refine ⟨(nonce e secret message z).val • e.base, ?_, ?_, ?_, ?_, ?_⟩
    · rw [signed, signatureR_append]
    · rw [signed, signatureS_append, littleEndian_toBytes]
      exact ZMod.val_lt _
    · intro zero
      apply fresh
      have divides := small_multiple lawful order_coprime zero
      rw [← ZMod.natCast_zmod_val (nonce e secret message z)]
      exact (ZMod.natCast_eq_zero_iff _ _).2 divides
    · exact fun zero => whole (small_multiple lawful order_coprime zero)
    · simp only [encoded]
      rw [signed, signatureS_append, signatureR_append, littleEndian_toBytes, response_multiple lawful]

end Lawful

/-- The top bit of a signature is free. -/
theorem sign_top {P : Type} [AddCommGroup P] (e : Edwards P) (secret : Arr 32) (message : Bytes)
    (z : Arr 64) : (sign e secret message z).get 63 >>> 7 = 0 := by
  rw [sign_eq, get_append_last]
  exact toBytes_top _

end Xeddsa

end Tacenta
