/-
# Tacenta.Erasure.Field -- the arithmetic is a field's

The crate multiplies without carries and folds the high bits back by the reducer.
Both loops commute with exclusive or, so an identity between products holds once
it holds of single bits, and there are sixteen of those.  That every element but
zero inverts is the order of `x`: its powers are 65535 distinct elements, so they
are all of them.

`Gf` is the sixteen-bit word under these operations, with Mathlib's `Field` over
it; the interpolation of the code is then the textbook's.
-/
import Tacenta.Erasure.Code

set_option autoImplicit false

namespace Tacenta.Erasure

/-! ## Functions that commute with exclusive or -/

/-- `f` commutes with exclusive or. -/
def Distributes {α β : Type} [XorOp α] [XorOp β] (f : α → β) : Prop :=
  ∀ a b, f (a ^^^ b) = f a ^^^ f b

/-- The `i`-th bit of a word, alone. -/
def bit (i : Nat) : UInt16 := UInt16.ofNat (2 ^ i)

theorem toNat_bit {i : Nat} (small : i < 16) : (bit i).toNat = 2 ^ i := by
  rw [bit, UInt16.toNat_ofNat', Nat.mod_eq_of_lt]
  exact Nat.pow_lt_pow_right (by decide) small

/-- Clearing the top bit of a number leaves a shorter one. -/
theorem xor_top_lt {a n : Nat} (below : a < 2 ^ (n + 1)) (top : 2 ^ n ≤ a) : a ^^^ 2 ^ n < 2 ^ n := by
  have high : a.testBit n = true := by
    rw [Nat.testBit_eq_decide_div_mod_eq]
    have quotient : a / 2 ^ n = 1 := by
      rw [Nat.div_eq_of_lt_le] <;> rw [pow_succ] at * <;> omega
    simp [quotient]
  apply Nat.lt_pow_two_of_testBit
  intro i above
  rw [Nat.testBit_xor, Nat.testBit_two_pow]
  rcases Nat.eq_or_lt_of_le above with same | past
  · subst same
    simp [high]
  · have short : a < 2 ^ i := below.trans_le (Nat.pow_le_pow_right (by decide) past)
    simp [Nat.testBit_lt_two_pow short, Nat.ne_of_lt past]

/-- **Sixteen bits decide**: what commutes with exclusive or is what it is on them. -/
theorem Distributes.ext {f g : UInt16 → UInt16} (hf : Distributes f) (hg : Distributes g)
    (bits : ∀ i < 16, f (bit i) = g (bit i)) (a : UInt16) : f a = g a := by
  have zero : ∀ {h : UInt16 → UInt16}, Distributes h → h 0 = 0 := by
    intro h distributes
    have doubled := distributes 0 0
    rw [UInt16.xor_self] at doubled
    rw [doubled, UInt16.xor_self]
  have short : ∀ n ≤ 16, ∀ a : UInt16, a.toNat < 2 ^ n → f a = g a := by
    intro n
    induction n with
    | zero =>
        intro _ a none_
        have same : a = 0 := UInt16.toNat_inj.1 (by simpa using none_)
        rw [same, zero hf, zero hg]
    | succ n ih =>
        intro room a below
        by_cases top : 2 ^ n ≤ a.toNat
        · have rest : (a ^^^ bit n).toNat < 2 ^ n := by
            rw [UInt16.toNat_xor, toNat_bit (by omega)]
            exact xor_top_lt below top
          have split_ : a = (a ^^^ bit n) ^^^ bit n := by
            rw [UInt16.xor_assoc, UInt16.xor_self, UInt16.xor_zero]
          rw [split_, hf, hg, ih (by omega) _ rest, bits n (by omega)]
        · exact ih (by omega) a (by omega)
  exact short 16 le_rfl a a.toNat_lt

namespace gf

/-! ## The two loops -/

/-- Whether bit `i` of a factor is set. -/
def set16 (b : UInt16) (i : Nat) : Bool := (b >>> UInt16.ofNat i) &&& 1 = 1

/-- Whether bit `i` of a product is set. -/
def set32 (v : UInt32) (i : Nat) : Bool := (v >>> UInt32.ofNat i) &&& 1 = 1

theorem set16_xor (b c : UInt16) (i : Nat) : set16 (b ^^^ c) i = (set16 b i ^^ set16 c i) := by
  have low : ∀ a : UInt16, decide (a &&& 1 = 1) = a.toNat.testBit 0 := by
    intro a
    rw [Nat.testBit_zero, decide_eq_decide, ← UInt16.toNat_inj, UInt16.toNat_and]
    exact iff_of_eq (congrArg (· = 1) (Nat.and_two_pow_sub_one_eq_mod a.toNat 1))
  simp only [set16, low, UInt16.shiftRight_xor, UInt16.toNat_xor, Nat.testBit_xor]

theorem set32_xor (v w : UInt32) (i : Nat) : set32 (v ^^^ w) i = (set32 v i ^^ set32 w i) := by
  have low : ∀ a : UInt32, decide (a &&& 1 = 1) = a.toNat.testBit 0 := by
    intro a
    rw [Nat.testBit_zero, decide_eq_decide, ← UInt32.toNat_inj, UInt32.toNat_and]
    exact iff_of_eq (congrArg (· = 1) (Nat.and_two_pow_sub_one_eq_mod a.toNat 1))
  simp only [set32, low, UInt32.shiftRight_xor, UInt32.toNat_xor, Nat.testBit_xor]

/-- Adding a term to one of two sums, to both or to neither. -/
theorem chosen_xor (p q : Bool) (x y t : UInt32) :
    (if (p ^^ q) = true then (x ^^^ y) ^^^ t else x ^^^ y) =
      (if p = true then x ^^^ t else x) ^^^ (if q = true then y ^^^ t else y) := by
  cases p <;> cases q
  · rfl
  · exact UInt32.xor_assoc _ _ _
  · show x ^^^ y ^^^ t = x ^^^ t ^^^ y
    ac_rfl
  · show x ^^^ y = x ^^^ t ^^^ (y ^^^ t)
    calc x ^^^ y = x ^^^ y ^^^ (t ^^^ t) := by rw [UInt32.xor_self, UInt32.xor_zero]
      _ = x ^^^ t ^^^ (y ^^^ t) := by ac_rfl

/-- Adding one of two terms or their sum. -/
theorem chosen_term (p : Bool) (x y s t : UInt32) :
    (if p = true then (x ^^^ y) ^^^ (s ^^^ t) else x ^^^ y) =
      (if p = true then x ^^^ s else x) ^^^ (if p = true then y ^^^ t else y) := by
  cases p
  · rfl
  · show x ^^^ y ^^^ (s ^^^ t) = x ^^^ s ^^^ (y ^^^ t)
    ac_rfl

/-- The loop of `clmul` over any positions, from any sum. -/
def clmulLoop (a b : UInt16) (l : List Nat) (acc : UInt32) : UInt32 :=
  l.foldl (fun acc i => if set16 b i then acc ^^^ (a.toUInt32 <<< UInt32.ofNat i) else acc) acc

theorem clmul_eq (a b : UInt16) : clmul a b = clmulLoop a b (List.range 16) 0 := by
  simp only [clmul, clmulLoop, set16, decide_eq_true_eq]

theorem clmulLoop_right (a b c : UInt16) (l : List Nat) (x y : UInt32) :
    clmulLoop a (b ^^^ c) l (x ^^^ y) = clmulLoop a b l x ^^^ clmulLoop a c l y := by
  induction l generalizing x y with
  | nil => rfl
  | cons i l ih =>
      simp only [clmulLoop, List.foldl_cons, set16_xor, chosen_xor] at ih ⊢
      exact ih _ _

theorem clmulLoop_left (a b c : UInt16) (l : List Nat) (x y : UInt32) :
    clmulLoop (a ^^^ b) c l (x ^^^ y) = clmulLoop a c l x ^^^ clmulLoop b c l y := by
  induction l generalizing x y with
  | nil => rfl
  | cons i l ih =>
      simp only [clmulLoop, List.foldl_cons, UInt16.toUInt32_xor, UInt32.shiftLeft_xor,
        chosen_term] at ih ⊢
      exact ih _ _

/-- The loop of `reduce` over any turns. -/
def reduceLoop (l : List Nat) (v : UInt32) : UInt32 :=
  l.foldl (fun v j => if set32 v (31 - j) then v ^^^ (reducer <<< UInt32.ofNat (31 - j - 16)) else v)
    v

theorem reduce_eq (v : UInt32) : reduce v = (reduceLoop (List.range 16) v).toUInt16 := by
  simp only [reduce, reduceLoop, set32, decide_eq_true_eq]

theorem reduceLoop_distributes (l : List Nat) : Distributes (reduceLoop l) := by
  induction l with
  | nil => exact fun _ _ => rfl
  | cons j l ih =>
      intro v w
      simp only [reduceLoop, List.foldl_cons, set32_xor, chosen_xor] at ih ⊢
      exact ih _ _

theorem reduce_distributes : Distributes reduce := by
  intro v w
  rw [reduce_eq, reduceLoop_distributes, UInt32.toUInt16_xor, ← reduce_eq, ← reduce_eq]

theorem mul_xor (a b c : UInt16) : mul a (b ^^^ c) = mul a b ^^^ mul a c := by
  have loops := clmulLoop_right a b c (List.range 16) 0 0
  rw [UInt32.xor_self] at loops
  rw [mul, clmul_eq, loops, reduce_distributes, ← clmul_eq, ← clmul_eq, mul, mul]

theorem xor_mul (a b c : UInt16) : mul (a ^^^ b) c = mul a c ^^^ mul b c := by
  have loops := clmulLoop_left a b c (List.range 16) 0 0
  rw [UInt32.xor_self] at loops
  rw [mul, clmul_eq, loops, reduce_distributes, ← clmul_eq, ← clmul_eq, mul, mul]

/-! ## The laws -/

theorem mul_bits : ∀ i < 16, ∀ j < 16, mul (bit i) (bit j) = mul (bit j) (bit i) := by
  decide +kernel

theorem double_mul_bits :
    ∀ i < 16, ∀ j < 16, mul 2 (mul (bit i) (bit j)) = mul (mul 2 (bit i)) (bit j) := by
  decide +kernel

theorem double_bits : ∀ i < 15, mul 2 (bit i) = bit (i + 1) := by decide +kernel

theorem one_mul_bits : ∀ i < 16, mul 1 (bit i) = bit i := by decide +kernel

theorem mul_comm (a b : UInt16) : mul a b = mul b a := by
  apply Distributes.ext (f := fun a => mul a b) (fun x y => xor_mul x y b) (mul_xor b)
  intro i hi
  apply Distributes.ext (g := fun b => mul b (bit i)) (mul_xor (bit i)) fun x y =>
    xor_mul x y (bit i)
  intro j hj
  exact mul_bits i hi j hj

theorem one_mul (a : UInt16) : mul 1 a = a := by
  apply Distributes.ext (g := fun a => a) (mul_xor 1) (fun _ _ => rfl)
  exact one_mul_bits

/-- Doubling comes out of a product. -/
theorem double_mul (a b : UInt16) : mul 2 (mul a b) = mul (mul 2 a) b := by
  apply Distributes.ext (f := fun a => mul 2 (mul a b)) (g := fun a => mul (mul 2 a) b)
  · intro x y
    show mul 2 (mul (x ^^^ y) b) = mul 2 (mul x b) ^^^ mul 2 (mul y b)
    rw [xor_mul, mul_xor]
  · intro x y
    show mul (mul 2 (x ^^^ y)) b = mul (mul 2 x) b ^^^ mul (mul 2 y) b
    rw [mul_xor, xor_mul]
  intro i hi
  apply Distributes.ext (f := fun b => mul 2 (mul (bit i) b)) (g := mul (mul 2 (bit i)))
  · intro x y
    show mul 2 (mul (bit i) (x ^^^ y)) = mul 2 (mul (bit i) x) ^^^ mul 2 (mul (bit i) y)
    rw [mul_xor, mul_xor]
  · exact mul_xor (mul 2 (bit i))
  intro j hj
  exact double_mul_bits i hi j hj

theorem mul_assoc (a b c : UInt16) : mul (mul a b) c = mul a (mul b c) := by
  apply Distributes.ext (f := fun a => mul (mul a b) c) (g := fun a => mul a (mul b c))
  · intro x y
    show mul (mul (x ^^^ y) b) c = mul (mul x b) c ^^^ mul (mul y b) c
    rw [xor_mul, xor_mul]
  · exact fun x y => xor_mul x y (mul b c)
  intro i hi
  -- Bit `i` is `1` doubled `i` times, and doubling comes out of both sides.
  induction i with
  | zero =>
      have unit : bit 0 = 1 := rfl
      rw [unit, one_mul, one_mul]
  | succ i ih =>
      rw [← double_bits i (by omega), ← double_mul, ← double_mul, ih (by omega), double_mul]

theorem zero_mul (a : UInt16) : mul 0 a = 0 := by
  have doubled := xor_mul 0 0 a
  rwa [UInt16.xor_self, UInt16.xor_self] at doubled

end gf

/-! ## The field -/

/-- An element of GF(2^16): a word, under the crate's operations. -/
structure Gf where
  val : UInt16
  deriving DecidableEq

namespace Gf

theorem val_inj {a b : Gf} : a.val = b.val ↔ a = b := by
  cases a
  cases b
  simp

instance : Add Gf := ⟨fun a b => ⟨gf.add a.val b.val⟩⟩
instance : Mul Gf := ⟨fun a b => ⟨gf.mul a.val b.val⟩⟩
instance : Zero Gf := ⟨⟨0⟩⟩
instance : One Gf := ⟨⟨1⟩⟩
instance : Neg Gf := ⟨fun a => a⟩
instance : Inv Gf := ⟨fun a => ⟨gf.inv a.val⟩⟩

@[simp] theorem val_add (a b : Gf) : (a + b).val = gf.add a.val b.val := rfl
@[simp] theorem val_mul (a b : Gf) : (a * b).val = gf.mul a.val b.val := rfl
@[simp] theorem val_zero : (0 : Gf).val = 0 := rfl
@[simp] theorem val_one : (1 : Gf).val = 1 := rfl
@[simp] theorem val_inv (a : Gf) : (a⁻¹).val = gf.inv a.val := rfl

theorem add_comm_ (a b : Gf) : a + b = b + a := val_inj.1 (UInt16.xor_comm a.val b.val)

instance : CommRing Gf where
  add_assoc a b c := val_inj.1 (UInt16.xor_assoc a.val b.val c.val)
  zero_add a := val_inj.1 UInt16.zero_xor
  add_zero a := val_inj.1 UInt16.xor_zero
  neg_add_cancel a := val_inj.1 UInt16.xor_self
  add_comm := add_comm_
  mul_assoc a b c := val_inj.1 (gf.mul_assoc a.val b.val c.val)
  one_mul a := val_inj.1 (gf.one_mul a.val)
  mul_one a := val_inj.1 ((gf.mul_comm a.val 1).trans (gf.one_mul a.val))
  left_distrib a b c := val_inj.1 (gf.mul_xor a.val b.val c.val)
  right_distrib a b c := val_inj.1 (gf.xor_mul a.val b.val c.val)
  zero_mul a := val_inj.1 (gf.zero_mul a.val)
  mul_zero a := val_inj.1 ((gf.mul_comm a.val 0).trans (gf.zero_mul a.val))
  mul_comm a b := val_inj.1 (gf.mul_comm a.val b.val)
  nsmul := nsmulRec
  zsmul := zsmulRec

theorem sub_eq_add (a b : Gf) : a - b = a + b := rfl

/-- The loop of `pow`: what is accumulated, times the base to what is left. -/
theorem powLoop_eq (fuel : Nat) (base acc : Gf) (e : Nat) (enough : e < 2 ^ fuel) :
    gf.powLoop fuel base.val e acc.val = (acc * base ^ e).val := by
  induction fuel generalizing base acc e with
  | zero =>
      have none_ : e = 0 := by simpa using enough
      simp [gf.powLoop, none_]
  | succ fuel ih =>
      unfold gf.powLoop
      by_cases none_ : e = 0
      · simp [none_]
      · rw [if_neg none_]
        have half : e / 2 < 2 ^ fuel := by
          rw [pow_succ] at enough
          omega
        have split_ := Nat.div_add_mod e 2
        rcases Nat.mod_two_eq_zero_or_one e with even | odd
        · rw [if_neg (by omega)]
          have step := ih (base * base) acc (e / 2) half
          rw [val_mul] at step
          rw [step, ← pow_two, ← pow_mul]
          congr 3
          omega
        · rw [if_pos odd]
          have step := ih (base * base) (acc * base) (e / 2) half
          rw [val_mul, val_mul] at step
          rw [step, ← pow_two, ← pow_mul, mul_assoc, ← pow_succ']
          congr 3
          omega

theorem val_pow (a : Gf) {n : Nat} (small : n < 2 ^ 32) : gf.pow a.val n = (a ^ n).val := by
  have loop := powLoop_eq 32 a 1 n small
  rw [one_mul] at loop
  exact loop

/-! ### Every element but zero is a power of `x` -/

/-- `x`. -/
def x : Gf := ⟨2⟩

theorem x_pow_order : x ^ 65535 = 1 := by
  rw [← val_inj, ← val_pow x (by decide)]
  decide +kernel

/-- No proper divisor of `65535 = 3 · 5 · 17 · 257` is the order of `x`. -/
theorem x_pow_divisors : x ^ 21845 ≠ 1 ∧ x ^ 13107 ≠ 1 ∧ x ^ 3855 ≠ 1 ∧ x ^ 255 ≠ 1 := by
  refine ⟨?_, ?_, ?_, ?_⟩ <;>
  · rw [Ne, ← val_inj, ← val_pow x (by decide)]
    decide +kernel

theorem orderOf_x : orderOf x = 65535 := by
  apply orderOf_eq_of_pow_and_pow_div_prime (by decide) x_pow_order
  intro p prime divides
  have factors : 65535 = 3 * (5 * (17 * 257)) := by norm_num
  obtain ⟨three, five, seventeen, rest⟩ := x_pow_divisors
  rw [factors, prime.dvd_mul, prime.dvd_mul, prime.dvd_mul,
    Nat.prime_dvd_prime_iff_eq prime (by norm_num), Nat.prime_dvd_prime_iff_eq prime (by norm_num),
    Nat.prime_dvd_prime_iff_eq prime (by norm_num),
    Nat.prime_dvd_prime_iff_eq prime (by norm_num)] at divides
  rcases divides with rfl | rfl | rfl | rfl
  · exact three
  · exact five
  · exact seventeen
  · exact rest

/-- The sixteen-bit words, counted. -/
def equivFin : Gf ≃ Fin 65536 where
  toFun a := a.val.toFin
  invFun n := ⟨UInt16.ofFin n⟩
  left_inv _ := rfl
  right_inv _ := rfl

instance : Fintype Gf := Fintype.ofEquiv _ equivFin.symm

theorem card_eq : Fintype.card Gf = 65536 := by
  rw [Fintype.card_congr equivFin, Fintype.card_fin]

theorem x_pow_ne_zero (n : Nat) : x ^ n ≠ 0 := by
  intro zero
  have wrapped : x ^ (n * 65535) = 1 := by
    rw [Nat.mul_comm, pow_mul, x_pow_order, one_pow]
  rcases Nat.eq_zero_or_pos n with none_ | some_
  · rw [none_, pow_zero] at zero
    exact absurd zero (by decide)
  · have vanished : x ^ (n * 65535) = 0 := by
      rw [pow_mul, zero, zero_pow (by decide)]
    rw [vanished] at wrapped
    exact absurd wrapped (by decide)

/-- **Every element but zero is a power of `x`.** -/
theorem exists_pow {a : Gf} (nonzero : a ≠ 0) : ∃ n, x ^ n = a := by
  have distinct : Set.InjOn (fun n => x ^ n) (Finset.range 65535 : Finset Nat) := by
    have injective := pow_injOn_Iio_orderOf (x := x)
    rw [orderOf_x] at injective
    intro m hm n hn same
    exact injective (by simpa using hm) (by simpa using hn) same
  have inside : (Finset.range 65535).image (fun n => x ^ n) ⊆ Finset.univ.erase 0 := by
    intro b here
    obtain ⟨n, -, rfl⟩ := Finset.mem_image.1 here
    exact Finset.mem_erase.2 ⟨x_pow_ne_zero n, Finset.mem_univ _⟩
  have sizes : (Finset.univ.erase (0 : Gf)).card ≤ ((Finset.range 65535).image fun n => x ^ n).card := by
    rw [Finset.card_image_of_injOn distinct, Finset.card_range,
      Finset.card_erase_of_mem (Finset.mem_univ _), Finset.card_univ, card_eq]
  have all := Finset.eq_of_subset_of_card_le inside sizes
  have here : a ∈ (Finset.range 65535).image fun n => x ^ n := by
    rw [all]
    exact Finset.mem_erase.2 ⟨nonzero, Finset.mem_univ _⟩
  obtain ⟨n, -, power⟩ := Finset.mem_image.1 here
  exact ⟨n, power⟩

/-- `inv` inverts: the exponent of a power of `x` is one short of its order. -/
theorem mul_inv_cancel_ {a : Gf} (nonzero : a ≠ 0) : a * a⁻¹ = 1 := by
  have inverse : a⁻¹ = a ^ 65534 := by
    have set_ : a.val ≠ 0 := fun zero => nonzero (val_inj.1 zero)
    rw [← val_inj, val_inv, gf.inv, if_neg set_, val_pow a (by decide)]
  obtain ⟨n, rfl⟩ := exists_pow nonzero
  rw [inverse, ← pow_succ', ← pow_mul, Nat.mul_comm, pow_mul, x_pow_order, one_pow]

/-- **The crate's arithmetic is a field's**, zero inverting to itself. -/
instance : Field Gf where
  exists_pair_ne := ⟨0, 1, by decide⟩
  mul_inv_cancel _ nonzero := mul_inv_cancel_ nonzero
  inv_zero := rfl
  nnqsmul := _
  nnqsmul_def _ _ := rfl
  qsmul := _
  qsmul_def _ _ := rfl

end Gf

end Tacenta.Erasure
