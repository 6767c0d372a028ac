/-
# Tacenta.Kdf -- HKDF over a keyed hash

`tacenta-kdf` derives every secret of the stack from one keyed hash.  The
secrets are kept abstract here: `K` is the type of the 32-byte values HMAC
yields, `Kdf.bytes` writes one as the bytes it is fed back as, and HKDF is the
crate's own extract-and-expand over `Kdf.hmac`, block by block (`hkdf`).

Over `K := [u8; 32]` this is the crate.  Keeping `K` a parameter is what lets
the ideal derivation exist at all: `Kdf.Ideal` says that outputs on distinct
inputs are distinct, which no function into 32 bytes satisfies, and
`hkdf_inj` carries that from the hash to every block HKDF cuts.
-/
import Tacenta.Words

set_option autoImplicit false

namespace Tacenta

/-- A secret as the crate holds it, `[u8; 32]`. -/
abbrev Secret := Arr 32

/-- The bytes of an ASCII literal, `b"..."`. -/
def ascii (s : String) : Bytes :=
  s.toList.map fun c => UInt8.ofNat c.toNat

/-- The keyed hash the stack derives its secrets with, over the type of secrets. -/
structure Kdf (K : Type) where
  /-- A secret as the bytes it is used as. -/
  bytes : K → Bytes
  /-- `[0u8; 32]`. -/
  zero : K
  /-- `hmac_sha256(key, data)`. -/
  hmac : Bytes → Bytes → K

namespace Kdf

variable {K : Type} (kdf : Kdf K)

/-- HKDF-Expand, `T(i + 1)`: the `i`-th 32-byte block. -/
def expand (prk : K) (info : Bytes) : Nat → K
  | 0 => kdf.hmac (kdf.bytes prk) (info ++ [1])
  | i + 1 => kdf.hmac (kdf.bytes prk) (kdf.bytes (expand prk info i) ++ info ++ [UInt8.ofNat (i + 2)])

/-- `hkdf_sha256(salt, ikm, info)`, its `i`-th 32-byte block. -/
def hkdf (salt ikm info : Bytes) (i : Nat) : K :=
  kdf.expand (kdf.hmac salt ikm) info i

/-- The salt `&[0u8; 32]`. -/
def zeroSalt : Bytes := List.replicate 32 0

/-- **The ideal derivation**: outputs on distinct inputs are distinct. -/
structure Ideal : Prop where
  bytes_inj : ∀ {a b : K}, kdf.bytes a = kdf.bytes b → a = b
  hmac_inj : ∀ {k m k' m' : Bytes}, kdf.hmac k m = kdf.hmac k' m' → k = k' ∧ m = m'

/-- Every secret is 32 bytes long, as the crate's are. -/
def Sized : Prop := ∀ k : K, (kdf.bytes k).length = 32

/-- Each block is one call of the hash, under the extracted key, on data whose
last byte is the block's counter. -/
theorem expand_eq (prk : K) (info : Bytes) (i : Nat) :
    ∃ data, kdf.expand prk info i = kdf.hmac (kdf.bytes prk) (data ++ [UInt8.ofNat (i + 1)]) := by
  cases i with
  | zero => exact ⟨info, rfl⟩
  | succ i => exact ⟨_, rfl⟩

variable {kdf}

/-- An HKDF block determines its salt, its keying material and its position. -/
theorem Ideal.hkdf_inj (ideal : kdf.Ideal) {salt ikm info salt' ikm' info' : Bytes} {i j : Nat}
    (hi : i < 255) (hj : j < 255)
    (same : kdf.hkdf salt ikm info i = kdf.hkdf salt' ikm' info' j) :
    salt = salt' ∧ ikm = ikm' ∧ i = j := by
  obtain ⟨d, hd⟩ := kdf.expand_eq (kdf.hmac salt ikm) info i
  obtain ⟨d', hd'⟩ := kdf.expand_eq (kdf.hmac salt' ikm') info' j
  rw [hkdf, hkdf, hd, hd'] at same
  obtain ⟨prk, data⟩ := ideal.hmac_inj same
  obtain ⟨hsalt, hikm⟩ := ideal.hmac_inj (ideal.bytes_inj prk)
  refine ⟨hsalt, hikm, ?_⟩
  have last := congrArg (fun l => l.getLast?) data
  simp only [List.getLast?_append, List.getLast?_singleton, Option.some_or, Option.some.injEq,
    ← UInt8.toNat_inj, UInt8.toNat_ofNat'] at last
  omega

/-- What an expansion block is hashed under ends in its label. -/
theorem expand_label (kdf : Kdf K) (prk : K) (info : Bytes) (i : Nat) :
    ∃ before, kdf.expand prk info i =
      kdf.hmac (kdf.bytes prk) (before ++ info ++ [UInt8.ofNat (i + 1)]) := by
  cases i with
  | zero => exact ⟨[], rfl⟩
  | succ i => exact ⟨_, rfl⟩

/-- Blocks under labels of which neither ends in the other are distinct. -/
theorem Ideal.hkdf_label (ideal : kdf.Ideal) {salt ikm info salt' ikm' info' : Bytes} {i n : Nat}
    (long : n ≤ info.length) (long' : n ≤ info'.length)
    (apart : info.reverse.take n ≠ info'.reverse.take n) :
    kdf.hkdf salt ikm info i ≠ kdf.hkdf salt' ikm' info' i := by
  intro same
  obtain ⟨before, hb⟩ := kdf.expand_label (kdf.hmac salt ikm) info i
  obtain ⟨before', hb'⟩ := kdf.expand_label (kdf.hmac salt' ikm') info' i
  rw [hkdf, hkdf, hb, hb'] at same
  have data := List.append_cancel_right (ideal.hmac_inj same).2
  have ends := congrArg (fun l => l.reverse.take n) data
  simp only [List.reverse_append] at ends
  rw [List.take_append_of_le_length (by simpa using long),
    List.take_append_of_le_length (by simpa using long')] at ends
  exact apart ends

end Kdf

end Tacenta
