/-
# Tacenta.Kdf.Hkdf -- the key derivation of `tacenta-kdf`

`hkdf.rs`: extract, then expand block by block into a buffer, under a counter of
one byte that is advanced only while bytes are left to fill.  Within the bound
of 255 blocks the counter never overflows and the buffer holds the output of
RFC 5869 (`hkdfSha256Into_eq`); the crate's keyed hash is the instance of `Kdf`
the rest of the development takes as a parameter (`Kdf.crate`).
-/
import Tacenta.Kdf
import Tacenta.Kdf.Hmac

set_option autoImplicit false

namespace Tacenta

namespace Hkdf

def hashLen : Nat := 32
def maxOutputLen : Nat := 255 * hashLen

/-- HKDF-Extract. -/
def extract (salt ikm : Bytes) : Arr 32 := ((HmacSha256.new salt).update ikm).finalize

/-- The inner loop: a block's bytes into the buffer from `pos` on, until either
ends; the buffer and the position after it. -/
def fill : Bytes → Bytes → Nat → Bytes × Nat
  | [], out, pos => (out, pos)
  | b :: t, out, pos => if pos < out.length then fill t (out.set pos b) (pos + 1) else (out, pos)

/-- `i += 1` on a byte, which panics past 255. -/
def nextCounter (i : UInt8) : Option UInt8 := if i.toNat + 1 < 256 then some (i + 1) else none

/-- `T(i)`, from `T(i - 1)`. -/
def nextBlock (prk : Arr 32) (info : Bytes) (t : Arr 32) (i : UInt8) : Arr 32 :=
  let m := HmacSha256.new prk.toList
  let m := if i > 1 then m.update t.toList else m
  ((m.update info).update [i]).finalize

/-- The outer loop, at most `fuel` times; `none` when the counter overflows. -/
def expandLoop (prk : Arr 32) (info : Bytes) : Nat → Arr 32 → Bytes → Nat → UInt8 → Option Bytes
  | 0, _, out, _, _ => some out
  | fuel + 1, t, out, pos, i =>
      if pos < out.length then
        let t := nextBlock prk info t i
        let (out, pos) := fill t.toList out pos
        if pos < out.length then do
          let i ← nextCounter i
          expandLoop prk info fuel t out pos i
        else expandLoop prk info fuel t out pos i
      else some out

/-- HKDF-Expand, filling all of `out`; every turn of the loop fills at least a byte. -/
def expand (prk : Arr 32) (info out : Bytes) : Option Bytes :=
  expandLoop prk info out.length (Vector.replicate 32 0) out 0 1

end Hkdf

/-- `hkdf_sha256_into`: the buffer it leaves, or `none` where it panics. -/
def hkdfSha256Into (salt ikm info out : Bytes) : Option Bytes :=
  if out.length ≤ Hkdf.maxOutputLen then Hkdf.expand (Hkdf.extract salt ikm) info out else none

/-- `hkdf_sha256::<N>`. -/
def hkdfSha256 (n : Nat) (salt ikm info : Bytes) : Option Bytes :=
  hkdfSha256Into salt ikm info (List.replicate n 0)

/-- The standard's HMAC-SHA256. -/
abbrev hmacStandard : Bytes → Bytes → Bytes := Fips198.hmac Fips180.sha256Bytes 64

namespace Hkdf

/-- A buffer filled up to `pos`. -/
theorem fill_eq (t : Bytes) {out : Bytes} {pos : Nat} (inside : pos ≤ out.length) :
    fill t out pos = (out.take pos ++ t.take (out.length - pos) ++ out.drop (pos + t.length),
      min (pos + t.length) out.length) := by
  induction t generalizing out pos with
  | nil => simp [fill, inside]
  | cons b t ih =>
      rw [fill]
      by_cases more : pos < out.length
      · rw [if_pos more, ih (by rw [List.length_set]; omega), List.length_set]
        have length : out.length - pos = out.length - (pos + 1) + 1 := by omega
        rw [length, List.take_succ_cons, List.take_add_one, List.take_set_of_le le_rfl,
          List.getElem?_set_self more, List.drop_set_of_lt (by omega), List.length_cons,
          show pos + 1 + t.length = pos + (t.length + 1) by omega]
        simp
      · rw [if_neg more]
        have all : pos = out.length := by omega
        subst all
        simp

/-- The standard's block at the counter. -/
theorem nextBlock_eq (prk : Arr 32) (info : Bytes) {t : Arr 32} {n : Nat} (small : n < 255)
    (before : 0 < n → t.toList = Rfc5869.t hmacStandard prk.toList info n) :
    (nextBlock prk info t (UInt8.ofNat (n + 1))).toList =
      Rfc5869.t hmacStandard prk.toList info (n + 1) := by
  have counter : (UInt8.ofNat (n + 1)).toNat = n + 1 := by
    rw [UInt8.toNat_ofNat', Nat.mod_eq_of_lt (by omega)]
  rw [nextBlock, Rfc5869.t]
  by_cases first : n = 0
  · subst first
    have parts := HmacSha256.updates_eq prk.toList [info, [UInt8.ofNat (0 + 1)]]
    rw [if_neg (by decide), show Rfc5869.t hmacStandard prk.toList info 0 = [] from rfl]
    simpa using parts
  · have later : UInt8.ofNat (n + 1) > 1 := by
      rw [gt_iff_lt, UInt8.lt_iff_toNat_lt, counter]
      show 1 < n + 1
      omega
    have parts := HmacSha256.updates_eq prk.toList [t.toList, info, [UInt8.ofNat (n + 1)]]
    rw [if_pos later, ← before (by omega)]
    simpa using parts

/-- The blocks up to `n`. -/
def blocks (prk : Arr 32) (info : Bytes) (n : Nat) : Bytes :=
  (List.range n).flatMap fun i => Rfc5869.t hmacStandard prk.toList info (i + 1)

theorem length_t (prk : Arr 32) (info : Bytes) (n : Nat) :
    (Rfc5869.t hmacStandard prk.toList info (n + 1)).length = 32 := by
  rw [Rfc5869.t, hmacStandard, ← hmacSha256_eq, Arr.length_toList]

theorem length_blocks (prk : Arr 32) (info : Bytes) (n : Nat) : (blocks prk info n).length = n * 32 := by
  rw [blocks, List.length_flatMap]
  simp [length_t]

theorem blocks_succ (prk : Arr 32) (info : Bytes) (n : Nat) :
    blocks prk info (n + 1) =
      blocks prk info n ++ Rfc5869.t hmacStandard prk.toList info (n + 1) := by
  rw [blocks, List.range_succ, List.flatMap_append]
  simp [blocks]

/-- Bytes past what is asked for do not matter. -/
theorem blocks_take (prk : Arr 32) (info : Bytes) {length n : Nat} (enough : length ≤ n * 32) :
    (blocks prk info n).take length =
      Rfc5869.expand hmacStandard 32 prk.toList info length := by
  have least : (length + 32 - 1) / 32 ≤ n := by omega
  obtain ⟨more, rfl⟩ := Nat.exists_eq_add_of_le least
  have front : length ≤ (blocks prk info ((length + 32 - 1) / 32)).length := by
    rw [length_blocks]
    omega
  rw [blocks, List.range_add, List.flatMap_append]
  exact List.take_append_of_le_length front

/-- The loop from the point where `n` blocks have filled the buffer up to `pos`. -/
theorem expandLoop_eq (prk : Arr 32) (info : Bytes) {fuel n : Nat} {t : Arr 32} {out : Bytes}
    (bound : out.length ≤ maxOutputLen) (unfinished : n * 32 < out.length)
    (enough : out.length < n * 32 + fuel + 1) (filled : out.take (n * 32) = blocks prk info n)
    (before : 0 < n → t.toList = Rfc5869.t hmacStandard prk.toList info n) :
    expandLoop prk info fuel t out (n * 32) (UInt8.ofNat (n + 1)) =
      some (Rfc5869.expand hmacStandard 32 prk.toList info out.length) := by
  have limit : maxOutputLen = 8160 := rfl
  induction fuel generalizing n t out with
  | zero => omega
  | succ fuel ih =>
      have block := nextBlock_eq prk info (by omega) before
      have width := length_t prk info n
      have next := blocks_succ prk info n
      rw [expandLoop, if_pos unfinished]
      simp only [fill_eq _ unfinished.le, block, width, filled]
      generalize nextBlock prk info t (UInt8.ofNat (n + 1)) = t' at *
      by_cases more : n * 32 + 32 < out.length
      · have here : min (n * 32 + 32) out.length = (n + 1) * 32 := by omega
        have front : (blocks prk info n ++ (Rfc5869.t hmacStandard prk.toList info (n + 1)).take
            (out.length - n * 32)) = blocks prk info (n + 1) := by
          rw [next, List.take_of_length_le (by omega)]
        have length : (blocks prk info (n + 1) ++ out.drop (n * 32 + 32)).length = out.length := by
          rw [List.length_append, length_blocks, List.length_drop]
          omega
        have counter : nextCounter (UInt8.ofNat (n + 1)) = some (UInt8.ofNat (n + 1 + 1)) := by
          rw [nextCounter, UInt8.toNat_ofNat', Nat.mod_eq_of_lt (by omega), if_pos (by omega),
            UInt8.ofNat_add (n + 1) 1]
          rfl
        rw [front, here, length, if_pos (by omega), counter]
        refine (ih (n := n + 1) ?_ ?_ ?_ ?_ fun _ => block).trans ?_
        · rwa [length]
        · rw [length]
          omega
        · rw [length]
          omega
        · exact List.take_left' (length_blocks prk info (n + 1))
        · rw [length]
      · have whole : (blocks prk info n ++ (Rfc5869.t hmacStandard prk.toList info (n + 1)).take
            (out.length - n * 32) ++ out.drop (n * 32 + 32)) =
            Rfc5869.expand hmacStandard 32 prk.toList info out.length := by
          have front : (blocks prk info n).take out.length = blocks prk info n := by
            refine List.take_of_length_le ?_
            rw [length_blocks]
            exact unfinished.le
          rw [List.drop_of_length_le (by omega), List.append_nil,
            ← blocks_take prk info (n := n + 1) (by omega), next, List.take_append, length_blocks,
            front]
        have all : min (n * 32 + 32) out.length = out.length := by omega
        have length : (Rfc5869.expand hmacStandard 32 prk.toList info out.length).length =
            out.length := by
          rw [← blocks_take prk info (n := n + 1) (by omega), List.length_take, length_blocks]
          omega
        rw [whole, all, length, if_neg (lt_irrefl _)]
        cases fuel with
        | zero => rfl
        | succ fuel => rw [expandLoop, if_neg (by omega)]

end Hkdf

/-- **HKDF-SHA256 fills the buffer with the standard's output**, whatever was in it. -/
theorem hkdfSha256Into_eq (salt ikm info out : Bytes) (fits : out.length ≤ Hkdf.maxOutputLen) :
    hkdfSha256Into salt ikm info out =
      some (Rfc5869.hkdf hmacStandard 32 salt ikm info out.length) := by
  have prk : (Hkdf.extract salt ikm).toList = hmacStandard salt ikm := hmacSha256_eq salt ikm
  rw [hkdfSha256Into, if_pos fits, Rfc5869.hkdf, ← prk, Hkdf.expand]
  cases out with
  | nil => rfl
  | cons b rest =>
      exact Hkdf.expandLoop_eq _ info (n := 0) fits (by simp) (by omega) rfl fun none_ =>
        absurd none_ (lt_irrefl 0)

/-- A shorter output is the front of a longer one. -/
theorem Rfc5869.expand_prefix (hmac : Bytes → Bytes → Bytes) (hashLen : Nat) (prk info : Bytes)
    {length length' : Nat} (le : length ≤ length') :
    Rfc5869.expand hmac hashLen prk info length <+: Rfc5869.expand hmac hashLen prk info length' := by
  have fewer : (length + hashLen - 1) / hashLen ≤ (length' + hashLen - 1) / hashLen :=
    Nat.div_le_div_right (by omega)
  obtain ⟨more, count⟩ := Nat.exists_eq_add_of_le fewer
  rw [Rfc5869.expand, Rfc5869.expand, count, List.range_add, List.flatMap_append]
  exact (List.take_prefix_take_left le).trans ((List.prefix_append _ _).take length')

/-! ## The crate's derivation -/

/-- The keyed hash of `tacenta-kdf`, over 32-byte secrets. -/
def Kdf.crate : Kdf Secret where
  bytes := Vector.toList
  zero := Vector.replicate 32 0
  hmac := hmacSha256

theorem Kdf.crate_sized : Kdf.crate.Sized := Arr.length_toList

theorem Kdf.crate_hmac (key data : Bytes) :
    (Kdf.crate.hmac key data).toList = hmacStandard key data := hmacSha256_eq key data

@[simp] theorem Kdf.crate_bytes (k : Secret) : Kdf.crate.bytes k = k.toList := rfl

theorem Kdf.crate_expand (prk : Secret) (info : Bytes) (i : Nat) :
    (Kdf.crate.expand prk info i).toList = Rfc5869.t hmacStandard prk.toList info (i + 1) := by
  induction i with
  | zero =>
      have counter : UInt8.ofNat (0 + 1) = 1 := rfl
      rw [Kdf.expand, Kdf.crate_hmac, Kdf.crate_bytes, Rfc5869.t, Rfc5869.t, List.nil_append, counter]
  | succ i ih => rw [Kdf.expand, Kdf.crate_hmac, Kdf.crate_bytes, Kdf.crate_bytes, Rfc5869.t, ← ih]

/-- **The blocks the development derives are what the crate writes**, end to end. -/
theorem hkdfSha256Into_blocks (salt ikm info out : Bytes) (fits : out.length ≤ Hkdf.maxOutputLen) :
    hkdfSha256Into salt ikm info out = some (((List.range ((out.length + 32 - 1) / 32)).flatMap
      fun i => (Kdf.crate.hkdf salt ikm info i).toList).take out.length) := by
  have block : ∀ i, (Kdf.crate.hkdf salt ikm info i).toList =
      Rfc5869.t hmacStandard (hmacStandard salt ikm) info (i + 1) := by
    intro i
    rw [Kdf.hkdf, Kdf.crate_expand, Kdf.crate_hmac]
  simp only [hkdfSha256Into_eq salt ikm info out fits, block]
  rfl

/-- **Key derivation is its standards'.**  SHA-256 of a message fed in any pieces
is that of FIPS 180-4, HMAC under a key of any length that of FIPS 198-1, and an
output of up to 255 blocks that of RFC 5869, whatever was in the buffer: the
counter does not overflow, and a shorter output is the front of a longer one. -/
theorem key_derivation_standard :
    (∀ parts : List Bytes, (parts.foldl Sha256.update Sha256.new).finalize.toList =
      Fips180.sha256 (bits parts.flatten)) ∧
    (∀ key data : Bytes, (hmacSha256 key data).toList =
      Fips198.hmac (fun m => Fips180.sha256 (bits m)) 64 key data) ∧
    (∀ salt ikm info out : Bytes, out.length ≤ 255 * 32 →
      hkdfSha256Into salt ikm info out = some (Rfc5869.hkdf
        (Fips198.hmac (fun m => Fips180.sha256 (bits m)) 64) 32 salt ikm info out.length)) ∧
    (∀ salt ikm info out out' : Bytes, out.length ≤ out'.length → out'.length ≤ 255 * 32 →
      ∃ okm okm', hkdfSha256Into salt ikm info out = some okm ∧
        hkdfSha256Into salt ikm info out' = some okm' ∧ okm <+: okm') := by
  refine ⟨Sha256.updates_eq, hmacSha256_eq, hkdfSha256Into_eq, ?_⟩
  intro salt ikm info out out' le fits
  exact ⟨_, _, hkdfSha256Into_eq _ _ _ _ (le.trans fits), hkdfSha256Into_eq _ _ _ _ fits,
    Rfc5869.expand_prefix _ _ _ _ le⟩

/-- The longest output there is, from an empty buffer's worth of inputs. -/
theorem key_derivation_standard_longest :
    hkdfSha256Into [1] [2] [3] (List.replicate (255 * 32) 0) = some (Rfc5869.hkdf
      (Fips198.hmac (fun m => Fips180.sha256 (bits m)) 64) 32 [1] [2] [3]
      (List.replicate (255 * 32) (0 : UInt8)).length) :=
  key_derivation_standard.2.2.1 _ _ _ _ (by rw [List.length_replicate])

end Tacenta
