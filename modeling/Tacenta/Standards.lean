/-
# Tacenta.Standards -- SHA-256, HMAC and HKDF as their standards define them

The hash of FIPS 180-4 over bit strings, the keyed hash of FIPS 198-1 over any
hash, and the key derivation of RFC 5869 over any keyed hash, transcribed from
the documents: padding as the least number of zeros, the schedule as the
recurrence on words, the constants as roots of the first primes.  What an
implementation needs to meet them is here as well: a padded byte string is the
bits of padded bytes (`bits_padding`), and a message is parsed into the blocks
of its parts (`chunks_append`).
-/
import Tacenta.Words

set_option autoImplicit false

namespace Tacenta

/-! ## Blocks -/

section Chunks

variable {α β : Type}

/-- The whole blocks of `n` a list is parsed into. -/
def chunks (n : Nat) (l : List α) : List (List α) :=
  (List.range (l.length / n)).map fun i => (l.drop (n * i)).take n

theorem chunks_of_short {n : Nat} {l : List α} (short : l.length < n) : chunks n l = [] := by
  rw [chunks, Nat.div_eq_of_lt short]
  rfl

/-- Whole blocks in front are parsed on their own. -/
theorem chunks_append {n k : Nat} (whole : 0 < n) {l : List α} (length : l.length = n * k)
    (rest : List α) : chunks n (l ++ rest) = chunks n l ++ chunks n rest := by
  have count : (l ++ rest).length / n = k + rest.length / n := by
    rw [List.length_append, length, Nat.mul_add_div whole]
  have own : l.length / n = k := by rw [length, Nat.mul_div_cancel_left _ whole]
  rw [chunks, count, chunks, own, chunks, List.range_add, List.map_append, List.map_map]
  congr 1
  · apply List.map_congr_left
    intro i here
    have inside : n * i + n ≤ l.length := by
      rw [length, ← Nat.mul_succ]
      exact Nat.mul_le_mul_left n (List.mem_range.1 here)
    rw [List.drop_append_of_le_length (by omega),
      List.take_append_of_le_length (by rw [List.length_drop]; omega)]
  · apply List.map_congr_left
    intro i _
    have split_ : n * (k + i) = l.length + n * i := by rw [length, Nat.mul_add]
    rw [Function.comp_apply, split_, List.drop_append, List.drop_of_length_le (by omega),
      List.nil_append, Nat.add_sub_cancel_left]

theorem chunks_single {n : Nat} (whole : 0 < n) {l : List α} (length : l.length = n) :
    chunks n l = [l] := by
  rw [chunks, length, Nat.div_self whole]
  show [(l.drop (n * 0)).take n] = [l]
  rw [Nat.mul_zero, List.drop_zero, ← length, List.take_length]

end Chunks

/-! ## Bit strings -/

/-- The `w` bits of a number, most significant first. -/
def toBits (w v : Nat) : List Bool := (List.range w).map fun i => v.testBit (w - 1 - i)

/-- The number a bit string spells, most significant bit first. -/
def ofBits (l : List Bool) : Nat := l.foldl (fun n b => 2 * n + b.toNat) 0

/-- A byte string as bits, each byte's most significant bit first. -/
def bits (m : Bytes) : List Bool := m.flatMap fun b => toBits 8 b.toNat

@[simp] theorem length_toBits (w v : Nat) : (toBits w v).length = w := by simp [toBits]

@[simp] theorem bits_append (l r : Bytes) : bits (l ++ r) = bits l ++ bits r := List.flatMap_append

@[simp] theorem length_bits (m : Bytes) : (bits m).length = 8 * m.length := by
  rw [bits, List.length_flatMap]
  simp [Nat.mul_comm]

theorem bits_drop (m : Bytes) (n : Nat) : (bits m).drop (8 * n) = bits (m.drop n) := by
  by_cases inside : n ≤ m.length
  · have split_ : bits m = bits (m.take n) ++ bits (m.drop n) := by
      rw [← bits_append, List.take_append_drop]
    rw [split_]
    exact List.drop_left' (by rw [length_bits, List.length_take_of_le inside])
  · rw [List.drop_of_length_le (by rw [length_bits]; omega), List.drop_of_length_le (by omega)]
    rfl

theorem bits_take (m : Bytes) (n : Nat) : (bits m).take (8 * n) = bits (m.take n) := by
  by_cases inside : n ≤ m.length
  · have split_ : bits m = bits (m.take n) ++ bits (m.drop n) := by
      rw [← bits_append, List.take_append_drop]
    rw [split_]
    exact List.take_left' (by rw [length_bits, List.length_take_of_le inside])
  · rw [List.take_of_length_le (by rw [length_bits]; omega), List.take_of_length_le (by omega)]

theorem chunks_bits (n : Nat) (m : Bytes) : chunks (8 * n) (bits m) = (chunks n m).map bits := by
  rw [chunks, chunks, length_bits, Nat.mul_div_mul_left _ _ (by decide), List.map_map]
  apply List.map_congr_left
  intro i _
  rw [Function.comp_apply, Nat.mul_assoc, bits_drop, bits_take]

theorem ofBits_append (l r : List Bool) : ofBits (l ++ r) = 2 ^ r.length * ofBits l + ofBits r := by
  induction r using List.reverseRecOn with
  | nil => simp [ofBits]
  | append_singleton r b ih =>
      have last : ∀ s : List Bool, ofBits (s ++ [b]) = 2 * ofBits s + b.toNat := by
        intro s
        simp [ofBits]
      rw [← List.append_assoc, last, last, ih, List.length_append, List.length_singleton, pow_succ]
      ring

theorem ofBits_toBits_byte (b : UInt8) : ofBits (toBits 8 b.toNat) = b.toNat := by
  have each : ∀ n < 256, ofBits (toBits 8 n) = n := by decide +kernel
  exact each _ b.toNat_lt

/-- The bits of a byte string spell the number its bytes do. -/
theorem ofBits_bits (m : Bytes) : ofBits (bits m) = ofBe m := by
  induction m using List.reverseRecOn with
  | nil => rfl
  | append_singleton m b ih =>
      have last : bits [b] = toBits 8 b.toNat := by simp [bits]
      rw [bits_append, ofBits_append, ih, last, length_toBits, ofBits_toBits_byte,
        ofBe_append_single]
      ring

theorem toBits_add_byte (w v : Nat) : toBits (w + 8) v = toBits w (v / 256) ++ toBits 8 (v % 256) := by
  rw [toBits, List.range_add, List.map_append, List.map_map]
  congr 1
  · apply List.map_congr_left
    intro i here
    have inside := List.mem_range.1 here
    have shifted : w + 8 - 1 - i = w - 1 - i + 8 := by omega
    rw [shifted, show 256 = 2 ^ 8 from rfl, Nat.testBit_div_two_pow]
  · apply List.map_congr_left
    intro i here
    have inside := List.mem_range.1 here
    have low : w + 8 - 1 - (w + i) = 8 - 1 - i := by omega
    rw [Function.comp_apply, low, show 256 = 2 ^ 8 from rfl, Nat.testBit_mod_two_pow,
      decide_eq_true (by omega), Bool.true_and]

/-- The bits of a big-endian number are the number's bits. -/
theorem bits_beBytes (n v : Nat) : bits (beBytes n v) = toBits (8 * n) v := by
  induction n generalizing v with
  | zero => rfl
  | succ n ih =>
      have last : bits [UInt8.ofNat v] = toBits 8 (v % 256) := by
        simp [bits]
      rw [beBytes, bits_append, ih, last, Nat.mul_succ, toBits_add_byte (8 * n)]

/-! ## FIPS 180-4 -/

namespace Fips180

/-- `Ch`, `Maj` and the rotation and shift they stand beside, on 32-bit words. -/
def ch (x y z : UInt32) : UInt32 := (x &&& y) ^^^ (~~~x &&& z)
def maj (x y z : UInt32) : UInt32 := (x &&& y) ^^^ (x &&& z) ^^^ (y &&& z)

/-- `ROTR^n`. -/
def rotr (n : Nat) (x : UInt32) : UInt32 :=
  (x >>> UInt32.ofNat n) ||| (x <<< UInt32.ofNat (32 - n))

/-- `SHR^n`. -/
def shr (n : Nat) (x : UInt32) : UInt32 := x >>> UInt32.ofNat n

def bigSigma0 (x : UInt32) : UInt32 := rotr 2 x ^^^ rotr 13 x ^^^ rotr 22 x
def bigSigma1 (x : UInt32) : UInt32 := rotr 6 x ^^^ rotr 11 x ^^^ rotr 25 x
def smallSigma0 (x : UInt32) : UInt32 := rotr 7 x ^^^ rotr 18 x ^^^ shr 3 x
def smallSigma1 (x : UInt32) : UInt32 := rotr 17 x ^^^ rotr 19 x ^^^ shr 10 x

/-- The first sixty-four primes. -/
def firstPrimes : List Nat := (List.range 312).filter fun n => Nat.Prime n

/-- `K_t`: the first 32 bits of the fractional part of a prime's cube root. -/
def k (t : Nat) : UInt32 := UInt32.ofNat (Nat.nthRoot 3 (firstPrimes.getD t 0 * 2 ^ 96))

/-- The eight words of a hash value, and the eight working variables. -/
structure Registers where
  a : UInt32
  b : UInt32
  c : UInt32
  d : UInt32
  e : UInt32
  f : UInt32
  g : UInt32
  h : UInt32
  deriving DecidableEq

/-- The first 32 bits of the fractional part of a prime's square root. -/
def initialWord (t : Nat) : UInt32 := UInt32.ofNat (Nat.nthRoot 2 (firstPrimes.getD t 0 * 2 ^ 64))

/-- `H^(0)`. -/
def initial : Registers where
  a := initialWord 0
  b := initialWord 1
  c := initialWord 2
  d := initialWord 3
  e := initialWord 4
  f := initialWord 5
  g := initialWord 6
  h := initialWord 7

/-- The number of zeros after the one. -/
def zeros (length : Nat) : Nat := (959 - length % 512) % 512

/-- A padded message: a one, zeros, and the length in 64 bits. -/
def pad (m : List Bool) : List Bool :=
  m ++ (true :: (List.replicate (zeros m.length) false ++ toBits 64 m.length))

/-- Word `i` of a block. -/
def word (block : List Bool) (i : Nat) : UInt32 :=
  UInt32.ofNat (ofBits ((block.drop (32 * i)).take 32))

/-- `W_t`. -/
def schedule (m : Nat → UInt32) (t : Nat) : UInt32 :=
  if t < 16 then m t
  else smallSigma1 (schedule m (t - 2)) + schedule m (t - 7) + smallSigma0 (schedule m (t - 15)) +
    schedule m (t - 16)
termination_by t
decreasing_by all_goals omega

/-- One round, under its constant and its word of the schedule. -/
def round (kt wt : UInt32) (r : Registers) : Registers :=
  let t1 := r.h + bigSigma1 r.e + ch r.e r.f r.g + kt + wt
  let t2 := bigSigma0 r.a + maj r.a r.b r.c
  { h := r.g, g := r.f, f := r.e, e := r.d + t1, d := r.c, c := r.b, b := r.a, a := t1 + t2 }

def Registers.add (r s : Registers) : Registers where
  a := r.a + s.a
  b := r.b + s.b
  c := r.c + s.c
  d := r.d + s.d
  e := r.e + s.e
  f := r.f + s.f
  g := r.g + s.g
  h := r.h + s.h

/-- `H^(i)` from `H^(i-1)` and a block. -/
def compress (h : Registers) (block : List Bool) : Registers :=
  ((List.range 64).foldl (fun r t => round (k t) (schedule (word block) t) r) h).add h

def Registers.toBytes (r : Registers) : Bytes :=
  be32 r.a ++ be32 r.b ++ be32 r.c ++ be32 r.d ++ be32 r.e ++ be32 r.f ++ be32 r.g ++ be32 r.h

/-- **SHA-256** of a bit string. -/
def sha256 (m : List Bool) : Bytes := ((chunks 512 (pad m)).foldl compress initial).toBytes

/-- The padding takes the least number of zeros that leaves 64 bits of a block. -/
theorem zeros_least (length : Nat) : (length + 1 + zeros length) % 512 = 448 ∧
    ∀ n, (length + 1 + n) % 512 = 448 → zeros length ≤ n := by
  unfold zeros
  constructor
  · omega
  · intro n fills
    omega

/-- The padding of a byte string is bytes. -/
theorem bits_padding (m : Bytes) : pad (bits m) =
    bits (m ++ (0x80 :: (List.replicate ((119 - m.length % 64) % 64) 0 ++
      beBytes 8 (8 * m.length)))) := by
  have count : zeros (8 * m.length) = 7 + 8 * ((119 - m.length % 64) % 64) := by
    unfold zeros
    omega
  have zero : bits (List.replicate ((119 - m.length % 64) % 64) 0) =
      List.replicate (8 * ((119 - m.length % 64) % 64)) false := by
    generalize (119 - m.length % 64) % 64 = n
    induction n with
    | zero => rfl
    | succ n ih =>
        have one : bits [0] = List.replicate 8 false := by decide
        rw [List.replicate_succ', bits_append, ih, one, ← List.replicate_add]
        rfl
  have marker : bits [0x80] = true :: List.replicate 7 false := by decide
  have cons : (0x80 :: (List.replicate ((119 - m.length % 64) % 64) 0 ++ beBytes 8 (8 * m.length)) :
      Bytes) = [0x80] ++ (List.replicate ((119 - m.length % 64) % 64) 0 ++
        beBytes 8 (8 * m.length)) := rfl
  rw [pad, length_bits, count, cons, bits_append, bits_append, bits_append, marker, zero,
    bits_beBytes, List.replicate_add, List.cons_append, List.append_assoc]

/-- The padded message is whole blocks. -/
theorem padded_length (m : Bytes) :
    (m ++ (0x80 :: (List.replicate ((119 - m.length % 64) % 64) 0 ++
      beBytes 8 (8 * m.length)))).length % 64 = 0 := by
  simp only [List.length_append, List.length_cons, List.length_replicate, length_beBytes]
  omega

end Fips180

/-! ## FIPS 198-1 -/

namespace Fips198

/-- The key brought to the width of a block. -/
def k0 (hash : Bytes → Bytes) (block : Nat) (key : Bytes) : Bytes :=
  let key := if key.length > block then hash key else key
  key ++ List.replicate (block - key.length) 0

def ipad : UInt8 := 0x36
def opad : UInt8 := 0x5c

/-- **HMAC** over a hash with blocks of `block` bytes. -/
def hmac (hash : Bytes → Bytes) (block : Nat) (key text : Bytes) : Bytes :=
  let k0 := k0 hash block key
  hash (k0.map (· ^^^ opad) ++ hash (k0.map (· ^^^ ipad) ++ text))

end Fips198

/-! ## RFC 5869 -/

namespace Rfc5869

/-- `T(i)`, over a keyed hash. -/
def t (hmac : Bytes → Bytes → Bytes) (prk info : Bytes) : Nat → Bytes
  | 0 => []
  | i + 1 => hmac prk (t hmac prk info i ++ info ++ [UInt8.ofNat (i + 1)])

/-- The first `length` bytes of `T(1) ‖ T(2) ‖ …`, of `hashLen` bytes each. -/
def expand (hmac : Bytes → Bytes → Bytes) (hashLen : Nat) (prk info : Bytes) (length : Nat) : Bytes :=
  ((List.range ((length + hashLen - 1) / hashLen)).flatMap fun i => t hmac prk info (i + 1)).take
    length

/-- **HKDF**: extract, then expand. -/
def hkdf (hmac : Bytes → Bytes → Bytes) (hashLen : Nat) (salt ikm info : Bytes) (length : Nat) :
    Bytes := expand hmac hashLen (hmac salt ikm) info length

end Rfc5869

end Tacenta
