/-
# Tacenta.Sample -- the assumptions hold together

Every result about the core names what it needs of a primitive.  Here one choice
of primitives satisfies all of it at once, so that no result is about nothing:
agreements are the exclusive or of public keys, encapsulations carry their
secret in the clear, signatures carry their signer, and the cipher does nothing.
The type of secrets and the way sixteen pairs of bytes become one are
parameters, for the results over 32-byte secrets and those over ideal ones.
-/
import Tacenta.Kem

set_option autoImplicit false

namespace Tacenta.Sample

variable {K : Type} (ofArr : Arr 32 → K)

/-! ## X25519 -/

theorem topByte_lt : 31 < 32 := by decide

/-- A public key: its secret with the top byte cleared. -/
def publicKey (secret : Arr 32) : Arr 32 := secret.set 31 0 topByte_lt

/-- The exclusive or of two keys. -/
def mix (a b : Arr 32) : Arr 32 := Vector.zipWith (· ^^^ ·) a b

def dh : Dh K where
  publicKey := publicKey
  diffieHellman secret peer := (ofArr (mix (publicKey secret) peer), true)
  isTorsionFree _ := true

theorem mix_comm (a b : Arr 32) : mix a b = mix b a := by
  ext i h
  simp [mix, UInt8.xor_comm]

theorem publicKey_canonical (secret : Arr 32) :
    Curve.isCanonicalX25519 (publicKey secret) = true := by
  simp [Curve.isCanonicalX25519, publicKey]

theorem publicKey_field (secret : Arr 32) :
    Curve.isCanonicalFieldElement (publicKey secret) = true := by
  obtain ⟨front, len, split⟩ : ∃ front, front.length = 31 ∧
      (publicKey secret).toList = front ++ [0] := by
    refine ⟨secret.toList.take 31, by simp, ?_⟩
    have long : secret.toList.length = 32 := by simp
    rw [publicKey, Vector.toList_set, List.set_eq_take_append_cons_drop, if_pos (by omega),
      List.drop_of_length_le (by omega)]
  have bound : Curve.pMinusOne = (0xec :: List.replicate 30 0xff) ++ [0x7f] := rfl
  have zipped : ((publicKey secret).toList.zip Curve.pMinusOne).reverse =
      (0, 0x7f) :: (front.zip (0xec :: List.replicate 30 0xff)).reverse := by
    rw [split, bound, List.zip_append (by simp [len])]
    simp
  simp only [Curve.isCanonicalFieldElement, zipped, Curve.atMost]
  simp [publicKey]

theorem dh_honest : (dh ofArr).Honest where
  publicKey_canonical := publicKey_canonical
  publicKey_valid secret := by
    simp [Dh.isValidIdentityKey, Dh.isPrimeOrderPublic, dh, publicKey_canonical, publicKey_field]

theorem dh_agrees : (dh ofArr).Agrees where
  symmetric a b := by simp [Dh.agree, dh, mix_comm]
  contributory a b := ⟨_, by simp [Dh.agree, dh]; rfl⟩

/-! ## XEdDSA -/

/-- A signature is the signer's public key, twice. -/
def xed : XEdDsa where
  signWith secret _ _ := publicKey secret ++ publicKey secret
  verify key _ sig := sig.toList.take 32 == key.toList

theorem xed_correct : xed.Correct (dh ofArr) := by
  intro secret message z
  have front : (publicKey secret ++ publicKey secret).toList.take 32 = (publicKey secret).toList := by
    rw [Vector.toList_append, List.take_left' (by simp)]
  simp [xed, dh, front]

/-! ## ML-KEM -/

def zeros (n : Nat) : Bytes := List.replicate n 0

@[simp] theorem length_zeros (n : Nat) : (zeros n).length = n := List.length_replicate

/-- `l` cut or zero-padded to `n` bytes. -/
def pad (n : Nat) (l : Bytes) : Bytes := l.take n ++ zeros (n - l.length)

@[simp] theorem length_pad (n : Nat) (l : Bytes) : (pad n l).length = n := by
  simp [pad]
  omega

theorem take_pad {m n : Nat} {l : Bytes} (hl : l.length = m) (hm : m ≤ n) :
    (pad n l).take m = l := by
  subst hl
  rw [pad, List.take_of_length_le hm, List.take_left]

/-- The secret whose thirty-two bytes begin `l`. -/
def opened (l : Bytes) : K :=
  ofArr ((Arr.ofBytes? 32 (l.take 32)).getD (Vector.replicate 32 0))

theorem opened_pad {n : Nat} (r : Arr 32) (hn : 32 ≤ n) :
    opened ofArr (pad n r.toList) = ofArr r := by
  rw [opened, take_pad (by simp) hn, Arr.ofBytes?_toList, Option.getD_some]

def kem : MlKem K where
  generateKeyPair seed :=
    (zeros 1536 ++ (pad MlKem.publicKeyLen seed.toList ++ zeros 64),
      pad MlKem.publicKeyLen seed.toList)
  validatePublicKey _ := true
  validatePrivateKeyOnly _ := true
  encapsulate _ r := (pad MlKem.ciphertextLen r.toList, ofArr r)
  decapsulate _ ciphertext := opened ofArr ciphertext

theorem kem_honest : (kem ofArr).Honest where
  sk_length seed := by simp [kem, MlKem.publicKeyLen, MlKem.privateKeyLen]
  pk_length seed := by simp [kem]
  pk_valid _ := rfl
  sk_valid _ := rfl
  pk_embedded seed := by
    simp only [MlKem.embeddedPublicKey, kem, List.length_append, length_zeros, length_pad]
    rw [List.drop_left' (by simp [MlKem.publicKeyLen]), List.take_left' (by simp)]
  ciphertext_length pk r := by simp [kem]
  decapsulate_encapsulate seed r := opened_pad ofArr r (by decide)

/-! ## The incremental ML-KEM -/

def incKem : IncKem K where
  generateKeyPair seed := some (pad Kem.keyPairLen seed.toList)
  pk1 kp := pad Kem.headerLen kp
  pk2 kp := pad Kem.ekVectorLen (kp.drop Kem.headerLen)
  decapsulateIncrementalKey _ ct1 _ := some (opened ofArr ct1)
  encapsulate1 _ r :=
    some (zeros Kem.encapsStateCoefficientBytes ++ r.toList, pad Kem.ct1Len r.toList,
      ofArr r)
  encapsulate2 _ _ := zeros Kem.ct2Len
  validatePkBytes _ _ := true

theorem coefficientsBounded_zero (n : Nat) :
    Kem.coefficientsBounded Kem.coefficientBound (zeros n) = true := by
  unfold zeros
  induction n using Nat.twoStepInduction with
  | zero => rfl
  | one => rfl
  | more n ih _ =>
      rw [List.replicate_succ, List.replicate_succ, Kem.coefficientsBounded, ih]
      decide

theorem incKem_honest : (incKem ofArr).Honest where
  keyPair_length seed kp generated := by
    simp only [incKem, Option.some.injEq] at generated
    simp [← generated]
  header_length kp := length_pad _ _
  ekVector_length kp := length_pad _ _
  keyPair_valid _ _ _ := rfl
  state_length header r st ct1 ss sampled := by
    simp only [incKem, Option.some.injEq, Prod.mk.injEq] at sampled
    simp [← sampled.1, Kem.encapsStateLen]
  ct1_length header r st ct1 ss sampled := by
    simp only [incKem, Option.some.injEq, Prod.mk.injEq] at sampled
    simp [← sampled.2.1]
  ct2_length st ek := by simp [incKem]
  generates seed := ⟨_, rfl⟩
  encapsulates seed kp r _ := ⟨_, _, _, rfl⟩
  coefficients_bounded seed kp r st ct1 ss _ sampled := by
    simp only [incKem, Option.some.injEq, Prod.mk.injEq] at sampled
    rw [← sampled.1, List.take_left' (by simp)]
    exact coefficientsBounded_zero _
  decapsulates seed kp r st ct1 ss _ sampled := by
    simp only [incKem, Option.some.injEq, Prod.mk.injEq] at sampled ⊢
    rw [← sampled.2.1, ← sampled.2.2]
    exact opened_pad ofArr r (by decide)

/-! ## The cipher -/

def aead : Aead K where
  encrypt _ _ _ plaintext _ := plaintext
  decrypt _ _ _ ciphertext _ := some ciphertext

theorem aead_inverts : (aead : Aead K).Inverts := fun _ _ _ _ _ => rfl

/-! ## Over 32-byte secrets -/

/-- A keyed hash into 32 bytes. -/
def kdf : Kdf (Arr 32) where
  bytes k := k.toList
  zero := Vector.replicate 32 0
  hmac key data := Vector.ofFn fun i =>
    key.getD i 0 ^^^ data.getD i 0 ^^^ UInt8.ofNat (key.length + data.length)

theorem kdf_sized : kdf.Sized := fun k => by simp [kdf]

/-- The sample primitives over 32-byte secrets. -/
def primitives : Primitives (Arr 32) where
  kdf := kdf
  dh := dh id
  kem := kem id
  incKem := incKem id
  xed := xed
  aead := aead

/-! ## Over ideal secrets -/

/-- A hash that keeps all it is given: the key's length in unary, the key, the data. -/
def idealKdf : Kdf Bytes where
  bytes k := k
  zero := []
  hmac key data := List.replicate key.length 1 ++ 0 :: (key ++ data)

theorem idealKdf_ideal : idealKdf.Ideal where
  bytes_inj same := same
  hmac_inj := by
    intro key data key' data' same
    have lengths : key.length = key'.length := by
      have marks := congrArg (fun l => (l.takeWhile (· == (1 : UInt8))).length) same
      simpa [idealKdf, List.takeWhile_append, List.takeWhile_replicate] using marks
    simp only [idealKdf, lengths] at same
    have rest := List.append_cancel_left same
    rw [List.cons.injEq] at rest
    exact List.append_inj rest.2 lengths

end Tacenta.Sample
