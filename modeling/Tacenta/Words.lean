/-
# Tacenta.Words -- bytes, fixed arrays and checked machine arithmetic

The crates compute on byte strings, fixed byte arrays and `u16`/`u32`/`u64`
counters.  A byte string is a `List UInt8`, an array `[u8; n]` is a `Vector`,
and the counters are Lean's own machine words; `checked_add`,
`saturating_add` and `saturating_sub` are defined here, each with the one lemma
that says what it does to the underlying number.

A big-endian encoding is written once for every width (`beBytes`), with its two
inverse laws `ofBe_beBytes` and `beBytes_ofBe`.
-/
import Mathlib

set_option autoImplicit false

namespace UInt32

/-- `u32::checked_add`. -/
def checkedAdd (a b : UInt32) : Option UInt32 :=
  if a.toNat + b.toNat < 2 ^ 32 then some (a + b) else none

/-- `u32::checked_mul`. -/
def checkedMul (a b : UInt32) : Option UInt32 :=
  if a.toNat * b.toNat < 2 ^ 32 then some (a * b) else none

/-- `u32::saturating_add`. -/
def saturatingAdd (a b : UInt32) : UInt32 :=
  if a.toNat + b.toNat < 2 ^ 32 then a + b else UInt32.ofNat (2 ^ 32 - 1)

/-- `u32::saturating_sub`. -/
def saturatingSub (a b : UInt32) : UInt32 :=
  if b ≤ a then a - b else 0

theorem toNat_add_of_lt {a b : UInt32} (h : a.toNat + b.toNat < 2 ^ 32) :
    (a + b).toNat = a.toNat + b.toNat := by
  rw [UInt32.toNat_add, Nat.mod_eq_of_lt h]

theorem checkedAdd_eq_some {a b c : UInt32} :
    a.checkedAdd b = some c ↔ c.toNat = a.toNat + b.toNat := by
  have hc := c.toNat_lt
  unfold checkedAdd
  split
  · rename_i h
    rw [Option.some.injEq, ← UInt32.toNat_inj, toNat_add_of_lt h, eq_comm]
  · simp only [reduceCtorEq, false_iff]
    omega

theorem checkedAdd_eq_none {a b : UInt32} :
    a.checkedAdd b = none ↔ 2 ^ 32 ≤ a.toNat + b.toNat := by
  unfold checkedAdd
  split <;> simp <;> omega

theorem checkedMul_eq_some {a b c : UInt32} :
    a.checkedMul b = some c ↔ c.toNat = a.toNat * b.toNat := by
  have hc := c.toNat_lt
  unfold checkedMul
  split
  · rename_i h
    rw [Option.some.injEq, ← UInt32.toNat_inj, UInt32.toNat_mul, Nat.mod_eq_of_lt h, eq_comm]
  · simp only [reduceCtorEq, false_iff]
    omega

@[simp] theorem toNat_saturatingAdd (a b : UInt32) :
    (a.saturatingAdd b).toNat = min (a.toNat + b.toNat) (2 ^ 32 - 1) := by
  unfold saturatingAdd
  split
  · rename_i h
    rw [toNat_add_of_lt h]
    omega
  · simp only [UInt32.toNat_ofNat']
    omega

@[simp] theorem toNat_saturatingSub (a b : UInt32) :
    (a.saturatingSub b).toNat = a.toNat - b.toNat := by
  unfold saturatingSub
  split
  · rename_i h
    rw [UInt32.toNat_sub_of_le _ _ h]
  · rename_i h
    rw [UInt32.le_iff_toNat_le] at h
    simp only [UInt32.toNat_zero]
    omega

end UInt32

namespace UInt64

/-- `u64::checked_add`. -/
def checkedAdd (a b : UInt64) : Option UInt64 :=
  if a.toNat + b.toNat < 2 ^ 64 then some (a + b) else none

/-- `u64::saturating_add`. -/
def saturatingAdd (a b : UInt64) : UInt64 :=
  if a.toNat + b.toNat < 2 ^ 64 then a + b else UInt64.ofNat (2 ^ 64 - 1)

/-- `u64::saturating_sub`. -/
def saturatingSub (a b : UInt64) : UInt64 :=
  if b ≤ a then a - b else 0

/-- `u64::MAX`, the epoch the agreement and the sparse ratchet reserve. -/
def maxValue : UInt64 := UInt64.ofNat (2 ^ 64 - 1)

@[simp] theorem toNat_maxValue : maxValue.toNat = 2 ^ 64 - 1 := by
  simp [maxValue]

theorem toNat_add_of_lt {a b : UInt64} (h : a.toNat + b.toNat < 2 ^ 64) :
    (a + b).toNat = a.toNat + b.toNat := by
  rw [UInt64.toNat_add, Nat.mod_eq_of_lt h]

theorem checkedAdd_eq_some {a b c : UInt64} :
    a.checkedAdd b = some c ↔ c.toNat = a.toNat + b.toNat := by
  have hc := c.toNat_lt
  unfold checkedAdd
  split
  · rename_i h
    rw [Option.some.injEq, ← UInt64.toNat_inj, toNat_add_of_lt h, eq_comm]
  · simp only [reduceCtorEq, false_iff]
    omega

theorem checkedAdd_eq_none {a b : UInt64} :
    a.checkedAdd b = none ↔ 2 ^ 64 ≤ a.toNat + b.toNat := by
  unfold checkedAdd
  split <;> simp <;> omega

@[simp] theorem toNat_saturatingAdd (a b : UInt64) :
    (a.saturatingAdd b).toNat = min (a.toNat + b.toNat) (2 ^ 64 - 1) := by
  unfold saturatingAdd
  split
  · rename_i h
    rw [toNat_add_of_lt h]
    omega
  · simp only [UInt64.toNat_ofNat']
    omega

@[simp] theorem toNat_saturatingSub (a b : UInt64) :
    (a.saturatingSub b).toNat = a.toNat - b.toNat := by
  unfold saturatingSub
  split
  · rename_i h
    rw [UInt64.toNat_sub_of_le _ _ h]
  · rename_i h
    rw [UInt64.le_iff_toNat_le] at h
    simp only [UInt64.toNat_zero]
    omega

end UInt64

namespace Tacenta

/-- A byte string: `&[u8]`, `Vec<u8>`. -/
abbrev Bytes := List UInt8

/-- A fixed array, `[u8; n]`. -/
abbrev Arr (n : Nat) := Vector UInt8 n

/-- The array holding exactly these bytes, when there are `n` of them. -/
def Arr.ofBytes? (n : Nat) (l : Bytes) : Option (Arr n) :=
  if h : l.length = n then some ⟨l.toArray, by simpa using h⟩ else none

@[simp] theorem Arr.length_toList {n : Nat} (a : Arr n) : a.toList.length = n := by simp

theorem Arr.ofBytes?_eq_some {n : Nat} {l : Bytes} {a : Arr n} :
    Arr.ofBytes? n l = some a ↔ l = a.toList := by
  unfold Arr.ofBytes?
  constructor
  · intro h
    split at h
    · simp only [Option.some.injEq] at h
      rw [← h]
      simp [Vector.toList]
    · simp at h
  · rintro rfl
    simp [Vector.toList]

@[simp] theorem Arr.ofBytes?_toList {n : Nat} (a : Arr n) :
    Arr.ofBytes? n a.toList = some a :=
  Arr.ofBytes?_eq_some.2 rfl

theorem Arr.toList_inj {n : Nat} {a b : Arr n} : a.toList = b.toList ↔ a = b := by
  constructor
  · intro h
    have := Arr.ofBytes?_toList a
    rw [h, Arr.ofBytes?_toList] at this
    exact (Option.some.inj this).symm
  · rintro rfl
    rfl

theorem Arr.toList_ofFn (n : Nat) (g : Nat → UInt8) :
    (Vector.ofFn fun b : Fin n => g b.val).toList = (List.range n).map g := by
  rw [Vector.toList_ofFn, List.ofFn_eq_map, ← List.map_coe_finRange_eq_range, List.map_map]
  rfl

/-! ## Big-endian words -/

/-- The `n` big-endian bytes of `v`: `to_be_bytes` at every width. -/
def beBytes : Nat → Nat → Bytes
  | 0, _ => []
  | n + 1, v => beBytes n (v / 256) ++ [UInt8.ofNat v]

/-- The number a big-endian byte string spells: `from_be_bytes`. -/
def ofBe (l : Bytes) : Nat :=
  l.foldl (fun acc b => acc * 256 + b.toNat) 0

@[simp] theorem length_beBytes (n v : Nat) : (beBytes n v).length = n := by
  induction n generalizing v with
  | zero => rfl
  | succ n ih => simp [beBytes, ih]

@[simp] theorem ofBe_append_single (l : Bytes) (b : UInt8) :
    ofBe (l ++ [b]) = ofBe l * 256 + b.toNat := by
  simp [ofBe]

/-- Byte `j` of a big-endian encoding. -/
theorem beBytes_eq_map (n v : Nat) :
    beBytes n v = (List.range n).map fun j => UInt8.ofNat (v / 256 ^ (n - 1 - j)) := by
  induction n generalizing v with
  | zero => rfl
  | succ n ih =>
      rw [beBytes, ih, List.range_succ, List.map_append, List.map_singleton]
      congr 1
      · apply List.map_congr_left
        intro j here
        have inside := List.mem_range.1 here
        rw [Nat.div_div_eq_div_mul, ← pow_succ', show n + 1 - 1 - j = n - 1 - j + 1 by omega]
      · simp

theorem ofBe_beBytes (n v : Nat) : ofBe (beBytes n v) = v % 256 ^ n := by
  induction n generalizing v with
  | zero => simp [beBytes, ofBe, Nat.mod_one]
  | succ n ih =>
      rw [beBytes, ofBe_append_single, ih, pow_succ, UInt8.toNat_ofNat', mul_comm (256 ^ n),
        Nat.mod_mul]
      omega

theorem ofBe_lt (l : Bytes) : ofBe l < 256 ^ l.length := by
  induction l using List.reverseRecOn with
  | nil => simp [ofBe]
  | append_singleton l b ih =>
      have := b.toNat_lt
      rw [ofBe_append_single, List.length_append, List.length_singleton, pow_succ]
      omega

theorem beBytes_ofBe (l : Bytes) : beBytes l.length (ofBe l) = l := by
  induction l using List.reverseRecOn with
  | nil => rfl
  | append_singleton l b ih =>
      have hb := b.toNat_lt
      have hdiv : (ofBe l * 256 + b.toNat) / 256 = ofBe l := by omega
      have hmod : UInt8.ofNat (ofBe l * 256 + b.toNat) = b := by
        rw [← UInt8.toNat_inj, UInt8.toNat_ofNat']
        omega
      rw [ofBe_append_single, List.length_append, List.length_singleton, beBytes, hdiv, ih, hmod]

/-- `u16::to_be_bytes`. -/
def be16 (x : UInt16) : Bytes := beBytes 2 x.toNat

/-- `u32::to_be_bytes`. -/
def be32 (x : UInt32) : Bytes := beBytes 4 x.toNat

/-- `u64::to_be_bytes`. -/
def be64 (x : UInt64) : Bytes := beBytes 8 x.toNat

@[simp] theorem length_be16 (x : UInt16) : (be16 x).length = 2 := length_beBytes _ _
@[simp] theorem length_be32 (x : UInt32) : (be32 x).length = 4 := length_beBytes _ _
@[simp] theorem length_be64 (x : UInt64) : (be64 x).length = 8 := length_beBytes _ _

theorem be16_inj {x y : UInt16} (h : be16 x = be16 y) : x = y := by
  have hx := x.toNat_lt
  have hy := y.toNat_lt
  have := congrArg ofBe h
  rw [be16, be16, ofBe_beBytes, ofBe_beBytes] at this
  rw [← UInt16.toNat_inj]
  omega

theorem be32_inj {x y : UInt32} (h : be32 x = be32 y) : x = y := by
  have hx := x.toNat_lt
  have hy := y.toNat_lt
  have := congrArg ofBe h
  rw [be32, be32, ofBe_beBytes, ofBe_beBytes] at this
  rw [← UInt32.toNat_inj]
  omega

theorem be64_inj {x y : UInt64} (h : be64 x = be64 y) : x = y := by
  have hx := x.toNat_lt
  have hy := y.toNat_lt
  have := congrArg ofBe h
  rw [be64, be64, ofBe_beBytes, ofBe_beBytes] at this
  rw [← UInt64.toNat_inj]
  omega

/-! ## The random source -/

/-- A random source: the bytes it will hand out, in order.  Every operation that
draws takes the source and returns what is left of it. -/
abbrev Rng := Nat → UInt8

/-- `rng.fill_bytes(&mut [0u8; n])`. -/
def fillBytes (n : Nat) (rng : Rng) : Arr n × Rng :=
  (Vector.ofFn fun i => rng i, fun i => rng (n + i))

end Tacenta
