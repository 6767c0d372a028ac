/-
# Tacenta.Kdf.Hmac -- the keyed hash of `tacenta-kdf`

`hmac.rs`: the key brought to one block, the inner hash started on it, and the
outer hash over the inner one.  For a key of any length it is the HMAC of
FIPS 198-1 over SHA-256 (`hmacSha256_eq`).
-/
import Tacenta.Kdf.Sha256

set_option autoImplicit false

namespace Tacenta

/-- SHA-256 on byte strings, as the standard has it. -/
def Fips180.sha256Bytes (m : Bytes) : Bytes := Fips180.sha256 (bits m)

/-- An incremental HMAC-SHA256: the inner hash, started on `K0 ⊕ ipad`, and the
outer block `K0 ⊕ opad`. -/
structure HmacSha256 where
  inner : Sha256
  outerBlock : Arr 64

namespace HmacSha256

/-- A loop that copies bytes to the front of a block. -/
def copy (block : Arr 64) (source : Bytes) : Arr 64 :=
  Sha256.write block 0 source.length fun i => source.getD i 0

/-- The key brought to one block: hashed when it is longer, padded with zeros. -/
def k0 (key : Bytes) : Arr 64 :=
  let zero := Vector.replicate 64 0
  if key.length > 64 then copy zero (sha256 key).toList else copy zero key

def new (key : Bytes) : HmacSha256 :=
  let k0 := k0 key
  let innerBlock := k0.map (· ^^^ 0x36)
  let outerBlock := k0.map (· ^^^ 0x5c)
  { inner := Sha256.new.update innerBlock.toList, outerBlock }

def update (m : HmacSha256) (data : Bytes) : HmacSha256 := { m with inner := m.inner.update data }

def finalize (m : HmacSha256) : Arr 32 :=
  ((Sha256.new.update m.outerBlock.toList).update m.inner.finalize.toList).finalize

end HmacSha256

/-- `hmac_sha256`, in one call. -/
def hmacSha256 (key data : Bytes) : Arr 32 := ((HmacSha256.new key).update data).finalize

namespace HmacSha256

theorem toList_copy {source : Bytes} (fits : source.length ≤ 64) :
    (copy (Vector.replicate 64 0) source).toList =
      source ++ List.replicate (64 - source.length) 0 := by
  have written : (List.range source.length).map (fun i => source.getD i 0) = source := by
    apply List.ext_getElem
    · rw [List.length_map, List.length_range]
    · intro i _ inside
      rw [List.getElem_map, List.getElem_range, List.getD_eq_getElem _ _ inside]
  rw [copy, Sha256.toList_write _ (by omega), written, List.take_zero, List.nil_append, Nat.zero_add,
    Vector.toList_replicate, List.drop_replicate]

/-- **The key's block is the standard's**, for keys below, at and above a block. -/
theorem toList_k0 (key : Bytes) : (k0 key).toList = Fips198.k0 Fips180.sha256Bytes 64 key := by
  unfold k0 Fips198.k0
  by_cases long : key.length > 64
  · rw [if_pos long, if_pos long, toList_copy (by rw [Arr.length_toList]; decide), sha256_eq]
    rfl
  · rw [if_neg long, if_neg long, toList_copy (by omega)]

/-- **A text fed in any pieces under a key gives the text's HMAC.** -/
theorem updates_eq (key : Bytes) (parts : List Bytes) :
    (parts.foldl update (new key)).finalize.toList =
      Fips198.hmac Fips180.sha256Bytes 64 key parts.flatten := by
  have fed : ∀ m : HmacSha256, parts.foldl update m =
      { m with inner := parts.foldl Sha256.update m.inner } := by
    induction parts with
    | nil => exact fun _ => rfl
    | cons part rest ih => exact fun m => ih (m.update part)
  have inner := Sha256.updates_eq (((k0 key).map (· ^^^ 0x36)).toList :: parts)
  have outer := Sha256.updates_eq [((k0 key).map (· ^^^ 0x5c)).toList,
    (parts.foldl Sha256.update (new key).inner).finalize.toList]
  rw [List.foldl_cons] at inner
  have folded : (Sha256.new.update ((k0 key).map (· ^^^ 0x36)).toList) = (new key).inner := rfl
  rw [folded] at inner
  rw [fed, finalize]
  show ((Sha256.new.update ((k0 key).map (· ^^^ 0x5c)).toList).update _).finalize.toList = _
  rw [List.foldl_cons, List.foldl_cons, List.foldl_nil, inner] at outer
  rw [inner, outer, Fips198.hmac, List.flatten_cons, List.flatten_cons, List.flatten_cons,
    List.flatten_nil, List.append_nil, Vector.toList_map, Vector.toList_map, toList_k0]
  rfl

end HmacSha256

/-- **HMAC-SHA256 is the standard's**, for keys and data of any length. -/
theorem hmacSha256_eq (key data : Bytes) :
    (hmacSha256 key data).toList = Fips198.hmac Fips180.sha256Bytes 64 key data := by
  have parts := HmacSha256.updates_eq key [data]
  rwa [List.flatten_cons, List.flatten_nil, List.append_nil] at parts

end Tacenta
