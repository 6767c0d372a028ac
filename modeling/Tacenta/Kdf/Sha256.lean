/-
# Tacenta.Kdf.Sha256 -- the hash of `tacenta-kdf`

`sha256.rs`: the tables, the schedule and the compression function in the
crate's loops, and the incremental hash that absorbs one byte at a time into a
64-byte buffer.  `Absorbed m s` is what the crate's comment calls its invariant:
`s` holds the hash of the whole blocks of `m`, the bytes after them at the front
of the buffer, and the length of `m`.  Every byte keeps it (`absorb_absorbed`),
and finishing an absorbed message gives its SHA-256 (`finalize_eq`).
-/
import Tacenta.Standards

set_option autoImplicit false

namespace Tacenta

open Fips180 (Registers)

namespace Sha256

/-! ## The functions on words -/

/-- `u32::rotate_right`. -/
def rotateRight (x : UInt32) (n : Nat) : UInt32 := UInt32.ofBitVec (x.toBitVec.rotateRight n)

def ch (x y z : UInt32) : UInt32 := (x &&& y) ^^^ (~~~x &&& z)
def maj (x y z : UInt32) : UInt32 := (x &&& y) ^^^ (x &&& z) ^^^ (y &&& z)
def bigSigma0 (x : UInt32) : UInt32 := rotateRight x 2 ^^^ rotateRight x 13 ^^^ rotateRight x 22
def bigSigma1 (x : UInt32) : UInt32 := rotateRight x 6 ^^^ rotateRight x 11 ^^^ rotateRight x 25
def smallSigma0 (x : UInt32) : UInt32 := rotateRight x 7 ^^^ rotateRight x 18 ^^^ (x >>> 3)
def smallSigma1 (x : UInt32) : UInt32 := rotateRight x 17 ^^^ rotateRight x 19 ^^^ (x >>> 10)

/-- `K`. -/
def roundConstants : List UInt32 :=
  [0x428a2f98, 0x71374491, 0xb5c0fbcf, 0xe9b5dba5, 0x3956c25b, 0x59f111f1, 0x923f82a4, 0xab1c5ed5,
    0xd807aa98, 0x12835b01, 0x243185be, 0x550c7dc3, 0x72be5d74, 0x80deb1fe, 0x9bdc06a7, 0xc19bf174,
    0xe49b69c1, 0xefbe4786, 0x0fc19dc6, 0x240ca1cc, 0x2de92c6f, 0x4a7484aa, 0x5cb0a9dc, 0x76f988da,
    0x983e5152, 0xa831c66d, 0xb00327c8, 0xbf597fc7, 0xc6e00bf3, 0xd5a79147, 0x06ca6351, 0x14292967,
    0x27b70a85, 0x2e1b2138, 0x4d2c6dfc, 0x53380d13, 0x650a7354, 0x766a0abb, 0x81c2c92e, 0x92722c85,
    0xa2bfe8a1, 0xa81a664b, 0xc24b8b70, 0xc76c51a3, 0xd192e819, 0xd6990624, 0xf40e3585, 0x106aa070,
    0x19a4c116, 0x1e376c08, 0x2748774c, 0x34b0bcb5, 0x391c0cb3, 0x4ed8aa4a, 0x5b9cca4f, 0x682e6ff3,
    0x748f82ee, 0x78a5636f, 0x84c87814, 0x8cc70208, 0x90befffa, 0xa4506ceb, 0xbef9a3f7, 0xc67178f2]

/-- `H0`. -/
def h0 : Vector UInt32 8 :=
  #v[0x6a09e667, 0xbb67ae85, 0x3c6ef372, 0xa54ff53a, 0x510e527f, 0x9b05688c, 0x1f83d9ab, 0x5be0cd19]

/-! ## The compression function -/

/-- `w[t]` of the first loop: four bytes of the block, big-endian. -/
def blockWord (block : Arr 64) (t : Nat) : UInt32 :=
  let byte := fun i => (block.toList.getD i 0).toUInt32
  (byte (4 * t) <<< 24) ||| (byte (4 * t + 1) <<< 16) ||| (byte (4 * t + 2) <<< 8) ||| byte (4 * t + 3)

/-- `w[t]` of the second loop, from the words before it. -/
def nextWord (w : List UInt32) (t : Nat) : UInt32 :=
  smallSigma1 (w.getD (t - 2) 0) + w.getD (t - 7) 0 + smallSigma0 (w.getD (t - 15) 0) +
    w.getD (t - 16) 0

/-- The message schedule: two loops over one array of 64 words. -/
def schedule (block : Arr 64) : List UInt32 :=
  let w := (List.range 16).foldl (fun w t => w.set t (blockWord block t)) (List.replicate 64 0)
  (List.range' 16 48).foldl (fun w t => w.set t (nextWord w t)) w

/-- One round on the eight local variables. -/
def round (w : List UInt32) (v : Registers) (t : Nat) : Registers :=
  let t1 := v.h + bigSigma1 v.e + ch v.e v.f v.g + roundConstants.getD t 0 + w.getD t 0
  let t2 := bigSigma0 v.a + maj v.a v.b v.c
  { h := v.g, g := v.f, f := v.e, e := v.d + t1, d := v.c, c := v.b, b := v.a, a := t1 + t2 }

/-- The eight words of a state. -/
def registers (h : Vector UInt32 8) : Registers where
  a := h.get 0
  b := h.get 1
  c := h.get 2
  d := h.get 3
  e := h.get 4
  f := h.get 5
  g := h.get 6
  h := h.get 7

def compress (h : Vector UInt32 8) (block : Arr 64) : Vector UInt32 8 :=
  let w := schedule block
  let v := (List.range 64).foldl (round w) (registers h)
  #v[v.a + h.get 0, v.b + h.get 1, v.c + h.get 2, v.d + h.get 3, v.e + h.get 4, v.f + h.get 5,
    v.g + h.get 6, v.h + h.get 7]

end Sha256

/-! ## The incremental hash -/

/-- An incremental SHA-256 computation; the buffer is never left full. -/
structure Sha256 where
  state : Vector UInt32 8
  buf : Arr 64
  bufLen : Nat
  total : UInt64
  room : bufLen < 64

namespace Sha256

def new : Sha256 where
  state := h0
  buf := Vector.replicate 64 0
  bufLen := 0
  total := 0
  room := by decide

/-- Absorb one byte. -/
def absorb (s : Sha256) (byte : UInt8) : Sha256 :=
  let buf := s.buf.setIfInBounds s.bufLen byte
  if full : s.bufLen + 1 = 64 then
    { state := compress s.state buf, buf, bufLen := 0, total := s.total + 1, room := by decide }
  else
    { state := s.state, buf, bufLen := s.bufLen + 1, total := s.total + 1,
      room := Nat.lt_of_le_of_ne s.room full }

def update (s : Sha256) (data : Bytes) : Sha256 := data.foldl absorb s

/-- A loop that writes `count` bytes from `start` on. -/
def write (buf : Arr 64) (start count : Nat) (byte : Nat → UInt8) : Arr 64 :=
  (List.range count).foldl (fun buf j => buf.setIfInBounds (start + j) (byte j)) buf

/-- Pad, compress the last block or two, and write the state big-endian. -/
def finalize (s : Sha256) : Arr 32 :=
  let bitLen := s.total * 8
  let buf := s.buf.setIfInBounds s.bufLen 0x80
  let n := s.bufLen + 1
  let (state, buf, n) :=
    if n > 56 then
      let buf := write buf n (64 - n) fun _ => 0
      (compress s.state buf, buf, 0)
    else (s.state, buf, n)
  let buf := write buf n (56 - n) fun _ => 0
  let buf := write buf 56 8 fun j => (bitLen >>> UInt64.ofNat (56 - 8 * j)).toUInt8
  let state := compress state buf
  Vector.ofFn fun i => (state.toList.getD (i / 4) 0 >>> UInt32.ofNat (24 - 8 * (i % 4))).toUInt8

end Sha256

/-- `sha256`, in one call. -/
def sha256 (data : Bytes) : Arr 32 := (Sha256.new.update data).finalize

/-! ## The functions are the standard's -/

namespace Sha256

theorem rotateRight_eq {n : Nat} (low : 0 < n) (high : n < 32) (x : UInt32) :
    rotateRight x n = Fips180.rotr n x := by
  apply UInt32.toBitVec_inj.1
  have right : (UInt32.ofNat n).toBitVec % 32 = BitVec.ofNat 32 n := by
    apply BitVec.eq_of_toNat_eq
    simp
    omega
  have left : (UInt32.ofNat (32 - n)).toBitVec % 32 = BitVec.ofNat 32 (32 - n) := by
    apply BitVec.eq_of_toNat_eq
    simp
    omega
  rw [rotateRight, Fips180.rotr, UInt32.toBitVec_or, UInt32.toBitVec_shiftRight,
    UInt32.toBitVec_shiftLeft, right, left, BitVec.rotateRight_def, Nat.mod_eq_of_lt high]
  simp only [BitVec.ushiftRight_eq', BitVec.shiftLeft_eq', BitVec.toNat_ofNat]
  rw [Nat.mod_eq_of_lt (by omega), Nat.mod_eq_of_lt (by omega)]

theorem bigSigma0_eq (x : UInt32) : bigSigma0 x = Fips180.bigSigma0 x := by
  simp only [bigSigma0, Fips180.bigSigma0, rotateRight_eq, Nat.reduceLT]

theorem bigSigma1_eq (x : UInt32) : bigSigma1 x = Fips180.bigSigma1 x := by
  simp only [bigSigma1, Fips180.bigSigma1, rotateRight_eq, Nat.reduceLT]

theorem smallSigma0_eq (x : UInt32) : smallSigma0 x = Fips180.smallSigma0 x := by
  simp only [smallSigma0, Fips180.smallSigma0, rotateRight_eq, Nat.reduceLT]
  rfl

theorem smallSigma1_eq (x : UInt32) : smallSigma1 x = Fips180.smallSigma1 x := by
  simp only [smallSigma1, Fips180.smallSigma1, rotateRight_eq, Nat.reduceLT]
  rfl

/-- **The table of round constants** holds the cube roots of the first primes. -/
theorem roundConstants_eq : roundConstants = (List.range 64).map Fips180.k := by decide +kernel

theorem roundConstants_getD {t : Nat} (inside : t < 64) : roundConstants.getD t 0 = Fips180.k t := by
  rw [roundConstants_eq, List.getD_eq_getElem _ _ (by simpa using inside), List.getElem_map,
    List.getElem_range]

/-- **The initial value** holds the square roots of the first primes. -/
theorem registers_h0 : registers h0 = Fips180.initial := by decide +kernel

theorem toNat_word (a b c d : UInt8) :
    ((a.toUInt32 <<< 24) ||| (b.toUInt32 <<< 16) ||| (c.toUInt32 <<< 8) ||| d.toUInt32).toNat =
      ofBe [a, b, c, d] := by
  have highest := a.toNat_lt
  have high := b.toNat_lt
  have low := c.toNat_lt
  have lowest := d.toNat_lt
  have first : (a.toUInt32 <<< 24).toNat = a.toNat * 2 ^ 24 := by
    rw [UInt32.toNat_shiftLeft, UInt8.toNat_toUInt32, Nat.shiftLeft_eq]
    exact Nat.mod_eq_of_lt (by simp; omega)
  have second : (b.toUInt32 <<< 16).toNat = b.toNat * 2 ^ 16 := by
    rw [UInt32.toNat_shiftLeft, UInt8.toNat_toUInt32, Nat.shiftLeft_eq]
    exact Nat.mod_eq_of_lt (by simp; omega)
  have third : (c.toUInt32 <<< 8).toNat = c.toNat * 2 ^ 8 := by
    rw [UInt32.toNat_shiftLeft, UInt8.toNat_toUInt32, Nat.shiftLeft_eq]
    exact Nat.mod_eq_of_lt (by simp; omega)
  have join : ∀ {x y : Nat} (k : Nat), y < 2 ^ k → x * 2 ^ k ||| y = x * 2 ^ k + y := by
    intro x y k small
    rw [← Nat.shiftLeft_eq, Nat.shiftLeft_add_eq_or_of_lt small]
  rw [UInt32.toNat_or, UInt32.toNat_or, UInt32.toNat_or, first, second, third,
    UInt8.toNat_toUInt32, Nat.lor_assoc, Nat.lor_assoc, join 8 (by omega), join 16 (by omega),
    join 24 (by omega)]
  simp only [ofBe, List.foldl_cons, List.foldl_nil]
  omega

/-- Four bytes of a list, from position `i` on. -/
theorem take_four {l : Bytes} {i : Nat} (inside : i + 4 ≤ l.length) :
    (l.drop i).take 4 = [l.getD i 0, l.getD (i + 1) 0, l.getD (i + 2) 0, l.getD (i + 3) 0] := by
  rw [List.drop_eq_getElem_cons (by omega), List.drop_eq_getElem_cons (by omega),
    List.drop_eq_getElem_cons (by omega), List.drop_eq_getElem_cons (by omega),
    List.getD_eq_getElem _ _ (by omega), List.getD_eq_getElem _ _ (by omega),
    List.getD_eq_getElem _ _ (by omega), List.getD_eq_getElem _ _ (by omega)]
  rfl

theorem blockWord_eq (block : Arr 64) {t : Nat} (inside : t < 16) :
    blockWord block t = Fips180.word (bits block.toList) t := by
  have within : 4 * t + 4 ≤ block.toList.length := by
    rw [Arr.length_toList]
    omega
  rw [Fips180.word, show 32 * t = 8 * (4 * t) by ring, bits_drop, show 32 = 8 * 4 from rfl, bits_take,
    ofBits_bits, take_four within, ← toNat_word, UInt32.ofNat_toNat]
  rfl

/-! ## The schedule -/

section Schedule

variable {w : List UInt32}

/-- A loop that writes each word of a stretch once leaves the others. -/
theorem set_words (f : List UInt32 → Nat → UInt32) (g : Nat → UInt32) {start : Nat} (count : Nat)
    (fits : start + count ≤ w.length) (before : ∀ t < start, w.getD t 0 = g t)
    (next : ∀ (w : List UInt32) (t : Nat), start ≤ t → t < start + count →
      (∀ s < t, w.getD s 0 = g s) → f w t = g t) :
    ((List.range' start count).foldl (fun w t => w.set t (f w t)) w).length = w.length ∧
      ∀ t < start + count,
        ((List.range' start count).foldl (fun w t => w.set t (f w t)) w).getD t 0 = g t := by
  induction count with
  | zero => exact ⟨rfl, before⟩
  | succ count ih =>
      obtain ⟨length, words⟩ := ih (by omega) fun w t low high => next w t low (by omega)
      rw [List.range'_concat, Nat.one_mul, List.foldl_append, List.foldl_cons, List.foldl_nil]
      generalize (List.range' start count).foldl (fun w t => w.set t (f w t)) w = v at *
      refine ⟨by rw [List.length_set, length], fun t inside => ?_⟩
      rw [List.getD_eq_getElem?_getD, List.getElem?_set]
      by_cases here : start + count = t
      · subst here
        rw [if_pos rfl, if_pos (by omega)]
        exact next v _ (by omega) (by omega) words
      · rw [if_neg here, ← List.getD_eq_getElem?_getD]
        exact words t (by omega)

/-- **The two loops compute the standard's schedule.** -/
theorem schedule_eq (block : Arr 64) {t : Nat} (inside : t < 64) :
    (schedule block).getD t 0 = Fips180.schedule (Fips180.word (bits block.toList)) t := by
  have first := @set_words (List.replicate 64 0) (fun _ t => blockWord block t)
    (Fips180.schedule (Fips180.word (bits block.toList))) 0 16
    (by rw [List.length_replicate]; decide) (fun t none_ => absurd none_ (Nat.not_lt_zero t))
    fun w t _ low _ => by
      rw [Fips180.schedule, if_pos (by omega), blockWord_eq block (by omega)]
  rw [← List.range_eq_range'] at first
  obtain ⟨length, words⟩ := first
  rw [List.length_replicate] at length
  rw [schedule]
  refine (set_words nextWord _ 48 (by rw [length]) words ?_).2 t inside
  intro w t low _ before
  rw [Fips180.schedule, if_neg (by omega), nextWord, before _ (by omega), before _ (by omega),
    before _ (by omega), before _ (by omega), smallSigma0_eq, smallSigma1_eq]

end Schedule

/-! ## The compression function -/

theorem round_eq (block : Arr 64) (v : Registers) {t : Nat} (inside : t < 64) :
    round (schedule block) v t = Fips180.round (Fips180.k t)
      (Fips180.schedule (Fips180.word (bits block.toList)) t) v := by
  rw [round, Fips180.round, roundConstants_getD inside, schedule_eq block inside, bigSigma0_eq,
    bigSigma1_eq]
  rfl

/-- **The compression function is the standard's.** -/
theorem registers_compress (h : Vector UInt32 8) (block : Arr 64) :
    registers (compress h block) = Fips180.compress (registers h) (bits block.toList) := by
  have rounds : (List.range 64).foldl (round (schedule block)) (registers h) =
      (List.range 64).foldl (fun r t => Fips180.round (Fips180.k t)
        (Fips180.schedule (Fips180.word (bits block.toList)) t) r) (registers h) :=
    List.foldl_ext _ _ _ fun v t here => round_eq block v (List.mem_range.1 here)
  have added : ∀ v : Registers, registers #v[v.a + h.get 0, v.b + h.get 1, v.c + h.get 2,
      v.d + h.get 3, v.e + h.get 4, v.f + h.get 5, v.g + h.get 6, v.h + h.get 7] =
      v.add (registers h) := fun _ => rfl
  rw [Fips180.compress, ← rounds]
  exact added _

/-! ## Writing into the buffer -/

theorem toList_write (buf : Arr 64) {start count : Nat} (fits : start + count ≤ 64)
    (byte : Nat → UInt8) : (write buf start count byte).toList =
      buf.toList.take start ++ ((List.range count).map byte ++ buf.toList.drop (start + count)) := by
  have length := Arr.length_toList buf
  induction count with
  | zero => simp [write]
  | succ count ih =>
      have step : write buf start (count + 1) byte =
          (write buf start count byte).setIfInBounds (start + count) (byte count) := by
        rw [write, List.range_succ, List.foldl_append]
        rfl
      have front : (buf.toList.take start ++ (List.range count).map byte).length = start + count := by
        rw [List.length_append, List.length_take, List.length_map, List.length_range]
        omega
      rw [step, Vector.toList_setIfInBounds, ih (by omega), ← List.append_assoc,
        List.set_append_right _ _ (by omega), front, Nat.sub_self,
        List.drop_eq_getElem_cons (by omega), List.set_cons_zero, List.range_succ, List.map_append,
        List.append_assoc, List.append_assoc]
      rfl

/-! ## Absorbing -/

/-- The bytes of a message after its whole blocks. -/
def tail (m : Bytes) : Bytes := m.drop (64 * (m.length / 64))

/-- The hash over whole blocks. -/
def blocksHash (h : Registers) (m : Bytes) : Registers :=
  ((chunks 64 m).map bits).foldl Fips180.compress h

/-- **`s` has absorbed `m`.** -/
structure Absorbed (m : Bytes) (s : Sha256) : Prop where
  state : registers s.state = blocksHash Fips180.initial m
  bufLen : s.bufLen = m.length % 64
  buf : s.buf.toList.take s.bufLen = tail m
  total : s.total = UInt64.ofNat m.length

theorem new_absorbed : Absorbed [] Sha256.new where
  state := registers_h0
  bufLen := rfl
  buf := rfl
  total := rfl

theorem whole_tail (m : Bytes) :
    (m.take (64 * (m.length / 64))).length = 64 * (m.length / 64) ∧
      m.take (64 * (m.length / 64)) ++ tail m = m := by
  refine ⟨List.length_take_of_le (Nat.mul_div_le _ _), List.take_append_drop _ _⟩

/-- What follows a message joins its last bytes. -/
theorem blocksHash_append (h : Registers) (m rest : Bytes) :
    blocksHash h (m ++ rest) = blocksHash (blocksHash h m) (tail m ++ rest) := by
  obtain ⟨length, split_⟩ := whole_tail m
  have short : chunks 64 (tail m) = [] := by
    refine chunks_of_short ?_
    rw [tail, List.length_drop]
    omega
  have all : ∀ rest, chunks 64 (m ++ rest) =
      chunks 64 (m.take (64 * (m.length / 64))) ++ chunks 64 (tail m ++ rest) := by
    intro rest
    rw [← chunks_append (by decide) length, ← List.append_assoc, split_]
  have own := all []
  rw [List.append_nil, List.append_nil, short, List.append_nil] at own
  rw [blocksHash, blocksHash, blocksHash, all, List.map_append, List.foldl_append, ← own]

/-- A byte written after the message's last bytes. -/
theorem written_after {m : Bytes} {s : Sha256} (absorbed : Absorbed m s) (byte : UInt8) :
    (s.buf.setIfInBounds s.bufLen byte).toList.take (s.bufLen + 1) = tail m ++ [byte] := by
  have room := s.room
  have width := Arr.length_toList s.buf
  rw [Vector.toList_setIfInBounds, List.take_add_one, List.take_set_of_le le_rfl, absorbed.buf,
    List.getElem?_set_self (by omega)]
  rfl

theorem absorb_absorbed {m : Bytes} {s : Sha256} (absorbed : Absorbed m s) (byte : UInt8) :
    Absorbed (m ++ [byte]) (s.absorb byte) := by
  have room := s.room
  have long := absorbed.bufLen
  have width := Arr.length_toList s.buf
  have total : s.total + 1 = UInt64.ofNat (m ++ [byte]).length := by
    rw [absorbed.total, List.length_append, List.length_singleton, UInt64.ofNat_add]
    rfl
  have written := written_after absorbed byte
  have state := blocksHash_append Fips180.initial m [byte]
  rw [← absorbed.state] at state
  have length : (m ++ [byte]).length = m.length + 1 := by simp
  by_cases full : s.bufLen + 1 = 64
  · have block : tail m ++ [byte] = (s.buf.setIfInBounds s.bufLen byte).toList := by
      rw [← written, full, List.take_of_length_le (by simp)]
    rw [block] at state
    rw [absorb, dif_pos full]
    refine ⟨?_, ?_, ?_, total⟩
    · rw [registers_compress, state, blocksHash, chunks_single (by decide) (Arr.length_toList _)]
      rfl
    · show 0 = _
      omega
    · show [] = _
      rw [tail, List.drop_of_length_le (by omega)]
  · have short : blocksHash (registers s.state) (tail m ++ [byte]) = registers s.state := by
      rw [blocksHash, chunks_of_short]
      · rfl
      · rw [← written, List.length_take]
        omega
    rw [absorb, dif_neg full]
    refine ⟨?_, ?_, ?_, total⟩
    · rw [state, short]
    · show s.bufLen + 1 = _
      omega
    · have same : (m.length + 1) / 64 = m.length / 64 := by omega
      show (s.buf.setIfInBounds s.bufLen byte).toList.take (s.bufLen + 1) = _
      rw [written, tail, tail, length, same, List.drop_append_of_le_length (by omega)]

/-- **Any split of a message is absorbed.** -/
theorem update_absorbed {m : Bytes} {s : Sha256} (absorbed : Absorbed m s) (data : Bytes) :
    Absorbed (m ++ data) (s.update data) := by
  induction data generalizing m s with
  | nil => simpa [update] using absorbed
  | cons byte rest ih =>
      have step := ih (absorb_absorbed absorbed byte)
      rwa [List.append_assoc] at step

/-! ## Finishing -/

/-- A word's bytes, as the crate shifts them out. -/
theorem be32_shifts (x : UInt32) :
    be32 x = (List.range 4).map fun j => (x >>> UInt32.ofNat (24 - 8 * j)).toUInt8 := by
  rw [be32, beBytes_eq_map]
  apply List.map_congr_left
  intro j here
  have inside := List.mem_range.1 here
  have shift : (UInt32.ofNat (24 - 8 * j)).toNat % 32 = 8 * (3 - j) := by
    rw [UInt32.toNat_ofNat', Nat.mod_eq_of_lt (by omega)]
    omega
  rw [← UInt8.toNat_inj, UInt8.toNat_ofNat', UInt32.toNat_toUInt8, UInt32.toNat_shiftRight, shift,
    Nat.shiftRight_eq_div_pow, pow_mul]
  rfl

theorem be64_shifts (x : UInt64) :
    be64 x = (List.range 8).map fun j => (x >>> UInt64.ofNat (56 - 8 * j)).toUInt8 := by
  rw [be64, beBytes_eq_map]
  apply List.map_congr_left
  intro j here
  have inside := List.mem_range.1 here
  have shift : (UInt64.ofNat (56 - 8 * j)).toNat % 64 = 8 * (7 - j) := by
    rw [UInt64.toNat_ofNat', Nat.mod_eq_of_lt (by omega)]
    omega
  rw [← UInt8.toNat_inj, UInt8.toNat_ofNat', UInt64.toNat_toUInt8, UInt64.toNat_shiftRight, shift,
    Nat.shiftRight_eq_div_pow, pow_mul]
  rfl

/-- The length field counts bits, of which it keeps 64. -/
theorem lengthField (n : Nat) : be64 (UInt64.ofNat n * 8) = beBytes 8 (8 * n) := by
  have value : (UInt64.ofNat n * 8).toNat = 8 * n % 256 ^ 8 := by
    rw [UInt64.toNat_mul, UInt64.toNat_ofNat', Nat.mod_mul_mod, Nat.mul_comm]
    rfl
  have spelled := beBytes_ofBe (beBytes 8 (8 * n))
  rw [length_beBytes, ofBe_beBytes] at spelled
  rw [be64, value, spelled]

/-- The state written big-endian. -/
theorem output_eq (state : Vector UInt32 8) :
    (Vector.ofFn fun i : Fin 32 =>
      (state.toList.getD (i / 4) 0 >>> UInt32.ofNat (24 - 8 * (i % 4))).toUInt8).toList =
      (registers state).toBytes := by
  have words : ∀ g : Nat → UInt8, (List.range 32).map g =
      (List.range 8).flatMap fun i => (List.range 4).map fun j => g (4 * i + j) := fun _ => rfl
  have word : ∀ i, ((List.range 4).map fun j => (state.toList.getD ((4 * i + j) / 4) 0 >>>
      UInt32.ofNat (24 - 8 * ((4 * i + j) % 4))).toUInt8) = be32 (state.toList.getD i 0) := by
    intro i
    rw [be32_shifts]
    apply List.map_congr_left
    intro j here
    have inside := List.mem_range.1 here
    rw [show (4 * i + j) / 4 = i by omega, show (4 * i + j) % 4 = j by omega]
  rw [Arr.toList_ofFn 32 fun i =>
    (state.toList.getD (i / 4) 0 >>> UInt32.ofNat (24 - 8 * (i % 4))).toUInt8, words]
  simp only [word, Registers.toBytes, List.append_assoc]
  obtain ⟨⟨words⟩, size⟩ := state
  match words, size with
  | [a, b, c, d, e, f, g, h], _ => rfl

/-- Zeros from `start` on. -/
theorem toList_zeros (buf : Arr 64) {start count : Nat} (fits : start + count ≤ 64) :
    (write buf start count fun _ => 0).toList =
      buf.toList.take start ++ (List.replicate count 0 ++ buf.toList.drop (start + count)) := by
  rw [toList_write buf fits, List.map_const', List.length_range]

/-- The length field closes a block of which the first 56 bytes are there. -/
theorem toList_length (buf : Arr 64) {m : Bytes} {total : UInt64} (count : total = UInt64.ofNat m.length) :
    (write buf 56 8 fun j => ((total * 8) >>> UInt64.ofNat (56 - 8 * j)).toUInt8).toList =
      buf.toList.take 56 ++ beBytes 8 (8 * m.length) := by
  have width := Arr.length_toList buf
  rw [toList_write buf (by decide), List.drop_of_length_le (by omega), List.append_nil, ← be64_shifts,
    count, lengthField]

/-- **Finishing an absorbed message gives its SHA-256.** -/
theorem finalize_eq {m : Bytes} {s : Sha256} (absorbed : Absorbed m s) :
    s.finalize.toList = Fips180.sha256 (bits m) := by
  have room := s.room
  have long := absorbed.bufLen
  have rest : (tail m).length = s.bufLen := by
    rw [tail, List.length_drop]
    omega
  have standard : Fips180.sha256 (bits m) = (blocksHash (registers s.state) (tail m ++
      (0x80 :: (List.replicate ((119 - s.bufLen) % 64) 0 ++ beBytes 8 (8 * m.length))))).toBytes := by
    rw [Fips180.sha256, Fips180.bits_padding, show 512 = 8 * 64 from rfl, chunks_bits,
      ← long, absorbed.state, ← blocksHash_append]
    rfl
  have mark := written_after absorbed 0x80
  have fields := fun buf => toList_length buf absorbed.total
  rw [standard, finalize]
  generalize s.buf.setIfInBounds s.bufLen 0x80 = buf at *
  by_cases late : s.bufLen + 1 > 56
  · -- the mark leaves no room for the length: a block of its own
    have first : (write buf (s.bufLen + 1) (64 - (s.bufLen + 1)) fun _ => 0).toList =
        tail m ++ 0x80 :: List.replicate (63 - s.bufLen) 0 := by
      have width := Arr.length_toList buf
      rw [toList_zeros buf (by omega), mark, List.drop_of_length_le (by omega), List.append_nil,
        List.append_assoc, show 64 - (s.bufLen + 1) = 63 - s.bufLen by omega]
      rfl
    have second : (write (write (write buf (s.bufLen + 1) (64 - (s.bufLen + 1)) fun _ => 0) 0 (56 - 0)
        fun _ => 0) 56 8 fun j => ((s.total * 8) >>> UInt64.ofNat (56 - 8 * j)).toUInt8).toList =
        List.replicate 56 0 ++ beBytes 8 (8 * m.length) := by
      rw [fields, toList_zeros _ (by decide), List.take_zero, List.nil_append,
        List.take_left' List.length_replicate]
    have whole : tail m ++ (0x80 :: (List.replicate ((119 - s.bufLen) % 64) 0 ++
        beBytes 8 (8 * m.length))) = (tail m ++ 0x80 :: List.replicate (63 - s.bufLen) 0) ++
        (List.replicate 56 0 ++ beBytes 8 (8 * m.length)) := by
      rw [show (119 - s.bufLen) % 64 = 63 - s.bufLen + 56 by omega, List.replicate_add]
      simp only [List.append_assoc, List.cons_append]
    rw [if_pos late, output_eq, registers_compress, second, registers_compress, first, whole, blocksHash,
      chunks_append (k := 1) (by decide), chunks_single (by decide), chunks_single (by decide)]
    · rfl
    · rw [List.length_append, List.length_replicate, length_beBytes]
    all_goals
      rw [List.length_append, List.length_cons, List.length_replicate, rest]
      omega
  · -- mark, zeros and length fit the block
    have only : (write (write buf (s.bufLen + 1) (56 - (s.bufLen + 1)) fun _ => 0) 56 8
        fun j => ((s.total * 8) >>> UInt64.ofNat (56 - 8 * j)).toUInt8).toList =
        tail m ++ (0x80 :: (List.replicate ((119 - s.bufLen) % 64) 0 ++ beBytes 8 (8 * m.length))) := by
      have length : (tail m ++ [0x80] ++ List.replicate (56 - (s.bufLen + 1)) 0).length = 56 := by
        rw [List.length_append, List.length_append, List.length_singleton, List.length_replicate, rest]
        omega
      rw [fields, toList_zeros buf (by omega), mark, ← List.append_assoc, List.take_left' length,
        show (119 - s.bufLen) % 64 = 56 - (s.bufLen + 1) by omega]
      simp only [List.append_assoc, List.cons_append, List.nil_append]
    rw [if_neg late, output_eq, registers_compress, only, blocksHash, chunks_single (by decide)]
    · rfl
    · rw [← only, Arr.length_toList]

end Sha256

/-- **The digest of a message fed in any pieces is its SHA-256.** -/
theorem Sha256.updates_eq (parts : List Bytes) :
    (parts.foldl Sha256.update Sha256.new).finalize.toList = Fips180.sha256 (bits parts.flatten) := by
  have absorbs : ∀ {m : Bytes} {s : Sha256}, Sha256.Absorbed m s →
      Sha256.Absorbed (m ++ parts.flatten) (parts.foldl Sha256.update s) := by
    induction parts with
    | nil => simp
    | cons part rest ih =>
        intro m s absorbed
        have step := ih (Sha256.update_absorbed absorbed part)
        rwa [List.append_assoc] at step
  exact Sha256.finalize_eq (absorbs Sha256.new_absorbed)

theorem sha256_eq (data : Bytes) : (sha256 data).toList = Fips180.sha256 (bits data) :=
  Sha256.finalize_eq (Sha256.update_absorbed Sha256.new_absorbed data)

end Tacenta
